import HsmRs.System.Standing

/-! # An engine call that is tried until it answers

A process has one engine call to see to: it opens what is closed, begins the call and
makes the calls of the adapters that it asks for. It can die anywhere, and the next process
begins the call again. Nothing else acts.
-/

namespace HsmRs

variable {κ : Type} [DecidableEq κ] [KeyHash κ] [Crates] {π : Policy (FileName κ) (Content κ)}
  {roots : Roots} {id : String} {c : EngineCall} {s s' : Disk (FileName κ) (Content κ)}
  {l l' : Live κ} {g : Imports} {sys sys' : System κ}

/-- What the process does next. Engine calls from before do not go on. -/
inductive Live.Tries (roots : Roots) (id : String) (c : EngineCall) : Live κ →
    Prog (LocalSig κ) (Live κ × List (String × Bytes)) → Prop where
  | storage : Tries roots id c ⟨none, none, []⟩
      ((LocalStorage.open roots.storage).run >>= fun x => .ret (⟨x.toOption, none, []⟩, []))
  | archive {self : LocalStorage κ} : Tries roots id c ⟨some self, none, []⟩
      ((LocalArchive.open roots.archive id).run >>= fun x =>
        .ret (⟨some self, x.toOption, []⟩, []))
  | begins {self : LocalStorage κ} {archive : LocalArchive} :
      Tries roots id c ⟨some self, some archive, []⟩
        (.ret (⟨some self, some archive, [c.workflow.run]⟩, []))
  | calls {self : LocalStorage κ} {archive : LocalArchive} {o : Call}
      {k : o.Ans → Prog engineSig (HsmResult EntityState)}
      {after : List (Prog engineSig (HsmResult EntityState))} :
      Tries roots id c ⟨some self, some archive, .op o k :: after⟩
        (Stores.answer o ⟨self, archive⟩ >>= fun x =>
          .ret (⟨some x.2.storage, some x.2.archive, k x.1 :: after⟩, []))

/-- The process goes on with the call. -/
inductive System.Goes (π : Policy (FileName κ) (Content κ)) (roots : Roots) (id : String)
    (c : EngineCall) : System κ → System κ → Prop where
  | acts {s s' : Disk (FileName κ) (Content κ)} {l l' : Live κ} {g : Imports}
      {p : Prog (LocalSig κ) (Live κ × List (String × Bytes))} :
      Live.Tries roots id c l p → Runs (fsMachine π) p s (l', []) s' →
      Goes π roots id c ⟨s, l, g⟩ ⟨s', l', g⟩

/-- The process goes on, or it dies: in the middle of something, or between. -/
inductive System.Tries (π : Policy (FileName κ) (Content κ)) (roots : Roots) (id : String)
    (c : EngineCall) : System κ → System κ → Prop where
  | goes {sys sys' : System κ} : System.Goes π roots id c sys sys' → Tries π roots id c sys sys'
  | dies {s s' : Disk (FileName κ) (Content κ)} {l : Live κ} {g : Imports}
      {p : Prog (LocalSig κ) (Live κ × List (String × Bytes))} :
      Live.Tries roots id c l p → Cuts (fsMachine π) p s s' →
      Tries π roots id c ⟨s, l, g⟩ ⟨s'.reboot, .dead, g⟩
  | falls {s : Disk (FileName κ) (Content κ)} {l : Live κ} {g : Imports} :
      Tries π roots id c ⟨s, l, g⟩ ⟨s.reboot, .dead, g⟩

/-- The call has answered. -/
def System.Answers (sys : System κ) (r : HsmResult EntityState) : Prop :=
  ∃ after, sys.live.engines = .ret r :: after

/-- The call has been begun. -/
def System.beginning (sys : System κ) (c : EngineCall) : System κ :=
  ⟨sys.disk, ⟨sys.live.storage, sys.live.archive, c.workflow.run :: sys.live.engines⟩, sys.imports⟩

theorem Live.Tries.acts {p : Prog (LocalSig κ) (Live κ × List (String × Bytes))}
    (h : Live.Tries roots id c l p) : Live.Acts roots True l [] p := by
  cases h with
  | storage => exact .opensStorage rfl
  | archive => exact .opensArchive id trivial rfl
  | begins => exact .begins c rfl rfl
  | calls => exact @Live.Acts.calls _ _ _ _ _ _ _ _ _ _ [] _

theorem Live.Tries.quiet {p : Prog (LocalSig κ) (Live κ × List (String × Bytes))}
    {done : List (String × Bytes)} (h : Live.Tries roots id c l p)
    (hr : Runs (fsMachine π) p s (l', done) s') : done = [] := by
  cases h with
  | begins =>
    cases hr
    rfl
  | storage =>
    obtain ⟨x, -, he⟩ := hr.of_map
    exact congrArg Prod.snd he
  | archive =>
    obtain ⟨x, -, he⟩ := hr.of_map
    exact congrArg Prod.snd he
  | calls =>
    obtain ⟨x, -, he⟩ := hr.of_map
    exact congrArg Prod.snd he

theorem System.Goes.step (h : System.Goes π roots id c sys sys') :
    System.Step π (.mortal roots.archive) roots sys sys' := by
  cases h with
  | @acts s _ l _ _ p hl hr =>
    have acts : Live.Acts roots ((Setting.mortal roots.archive).opens s) l [] p := hl.acts
    exact .acts acts hr

theorem System.Tries.step (h : System.Tries π roots id c sys sys') :
    System.Step π (.mortal roots.archive) roots sys sys' := by
  cases h with
  | goes h => exact h.step
  | @dies s s' l _ p hl hc =>
    have acts : Live.Acts roots ((Setting.mortal roots.archive).opens s) l [] p := hl.acts
    have crash : (Setting.mortal roots.archive : Setting κ).crash s' s'.reboot := rfl
    exact .dies acts hc crash
  | @falls s l g =>
    have crash : (Setting.mortal roots.archive : Setting κ).crash s s.reboot := rfl
    cases hl : l.storage with
    | none => exact .dies (.opensStorage hl) (.here _ s) crash
    | some self => exact .dies (.collects hl) (.here _ s) crash

theorem System.beginning_step {self : LocalStorage κ} {archive : LocalArchive}
    (hs : sys.live.storage = some self) (ha : sys.live.archive = some archive) :
    System.Step π (.mortal roots.archive) roots sys (sys.beginning c) :=
  .acts (.begins c (by simp [hs]) (by simp [ha])) (.ret _ _)

/-- One step nearer to the answer. -/
inductive Live.Nears (c : EngineCall) : Live κ → Live κ → Prop where
  | storage {self : LocalStorage κ} : Nears c ⟨none, none, []⟩ ⟨some self, none, []⟩
  | archive {self self' : LocalStorage κ} {archive : LocalArchive} :
      Nears c ⟨some self, none, []⟩ ⟨some self', some archive, []⟩
  | begins {self self' : LocalStorage κ} {archive archive' : LocalArchive} :
      Nears c ⟨some self, some archive, []⟩ ⟨some self', some archive', [c.workflow.run]⟩
  | calls {self self' : LocalStorage κ} {archive archive' : LocalArchive} {o : Call}
      {k : o.Ans → Prog engineSig (HsmResult EntityState)} {x : o.Ans}
      {after : List (Prog engineSig (HsmResult EntityState))} :
      Nears c ⟨some self, some archive, .op o k :: after⟩
        ⟨some self', some archive', k x :: after⟩

omit [DecidableEq κ] [KeyHash κ] [Crates] in
/-- Nobody comes nearer for ever: the programs end. -/
theorem Live.nears_ends (l : Live κ) : Acc (fun l' l => Live.Nears c l l') l := by
  have going : ∀ (p : Prog engineSig (HsmResult EntityState)) after (self : LocalStorage κ) archive,
      Acc (fun l' l => Live.Nears c l l') ⟨some self, some archive, p :: after⟩ := by
    intro p
    induction p with
    | ret r => exact fun after self archive => ⟨_, fun l' h => nomatch h⟩
    | op o k ih =>
      refine fun after self archive => ⟨_, fun l' h => ?_⟩
      cases h with
      | calls => exact ih _ after _ _
  have opened : ∀ (self : LocalStorage κ) archive,
      Acc (fun l' l => Live.Nears c l l') ⟨some self, some archive, []⟩ := by
    refine fun self archive => ⟨_, fun l' h => ?_⟩
    cases h with
    | begins => exact going _ _ _ _
  have opening : ∀ self : LocalStorage κ,
      Acc (fun l' l => Live.Nears c l l') ⟨some self, none, []⟩ := by
    refine fun self => ⟨_, fun l' h => ?_⟩
    cases h with
    | archive => exact opened _ _
  refine ⟨_, fun l' h => ?_⟩
  cases h with
  | storage => exact opening _
  | archive => exact opened _ _
  | begins => exact going _ _ _ _
  | calls => exact going _ _ _ _

/-! ## What a process has in hand -/

/-- Whatever the process has in hand, a cut leaves `C`, opening leads to `R`, and the call to an
answer with `Q`. -/
inductive Live.Under (π : Policy (FileName κ) (Content κ)) (roots : Roots) (id : String)
    (C : Disk (FileName κ) (Content κ) → Prop)
    (R : Stores κ → Disk (FileName κ) (Content κ) → Prop)
    (Q : HsmResult EntityState × Stores κ → Disk (FileName κ) (Content κ) → Prop)
    (s : Disk (FileName κ) (Content κ)) : Live κ → Prop
  | closed : Endures (fsMachine π) C (HsmEngine.openStores roots id) s R →
      Under π roots id C R Q s ⟨none, none, []⟩
  | opening {self : LocalStorage κ} : Endures (fsMachine π) C (do
        let backend ← LocalArchive.open roots.archive id
        return (⟨self, backend⟩ : Stores κ)) s R →
      Under π roots id C R Q s ⟨some self, none, []⟩
  | opened {self : LocalStorage κ} {archive : LocalArchive} : C s → R ⟨self, archive⟩ s →
      Under π roots id C R Q s ⟨some self, some archive, []⟩
  | going {self : LocalStorage κ} {archive : LocalArchive}
      {p : Prog engineSig (HsmResult EntityState)}
      {after : List (Prog engineSig (HsmResult EntityState))} :
      (p.interp Stores.answer ⟨self, archive⟩).wp (fsMachine π) C Q s →
      Under π roots id C R Q s ⟨some self, some archive, p :: after⟩

namespace Live.Under

variable {C : Disk (FileName κ) (Content κ) → Prop}
  {R : Stores κ → Disk (FileName κ) (Content κ) → Prop}
  {Q : HsmResult EntityState × Stores κ → Disk (FileName κ) (Content κ) → Prop}
  {p : Prog (LocalSig κ) (Live κ × List (String × Bytes))}

theorem now (h : Live.Under π roots id C R Q s l) : C s := by
  cases h with
  | closed h => exact h.now
  | opening h => exact h.now
  | opened hc => exact hc
  | going h => exact Prog.wp_now h

theorem answers {r : HsmResult EntityState}
    {after : List (Prog engineSig (HsmResult EntityState))}
    (h : Live.Under π roots id C R Q s l) (hl : l.engines = .ret r :: after) :
    ∃ storage archive, l.storage = some storage ∧ Q (r, ⟨storage, archive⟩) s := by
  cases h with
  | closed => cases hl
  | opening => cases hl
  | opened => cases hl
  | @going self archive p after h =>
    cases hl
    exact ⟨self, archive, rfl, (Prog.wp_ret.mp h).2⟩

theorem cut (h : Live.Under π roots id C R Q s l) (hl : Live.Tries roots id c l p)
    (hc : Cuts (fsMachine π) p s s') : C s' := by
  cases hl with
  | storage =>
    cases h with
    | closed h =>
      rw [HsmEngine.openStores] at h
      exact Prog.wp_sound_cuts (Prog.wp_run_bind.mp h) hc.of_map
  | archive =>
    cases h with
    | opening h => exact Prog.wp_sound_cuts (Prog.wp_run_bind.mp h) hc.of_map
  | begins =>
    cases hc
    exact h.now
  | calls =>
    cases h with
    | going h =>
      rw [Prog.interp_op, Prog.wp_bind] at h
      exact Prog.wp_sound_cuts h hc.of_map

theorem goes (h : Live.Under π roots id C R Q s l) (hl : Live.Tries roots id c l p)
    (lasts : ∀ stores s, R stores s → (c.workflow.locally stores).wp (fsMachine π) C Q s)
    {done : List (String × Bytes)} (hr : Runs (fsMachine π) p s (l', done) s') :
    Live.Under π roots id C R Q s' l' ∧ Live.Nears c l l' := by
  cases hl with
  | storage =>
    cases h with
    | closed h =>
      rw [HsmEngine.openStores] at h
      obtain ⟨x, hx, he⟩ := hr.of_map
      cases he
      have onward := Prog.wp_sound_runs (Prog.wp_run_bind.mp h) hx
      cases x with
      | error e =>
        obtain ⟨-, stores, he, -⟩ := onward
        cases he
      | ok self => exact ⟨.opening onward, .storage⟩
  | archive =>
    cases h with
    | opening h =>
      obtain ⟨x, hx, he⟩ := hr.of_map
      cases he
      have onward := Prog.wp_sound_runs (Prog.wp_run_bind.mp h) hx
      cases x with
      | error e =>
        obtain ⟨-, stores, he, -⟩ := onward
        cases he
      | ok archive =>
        obtain ⟨now, stores, he, ready⟩ := onward
        cases he
        exact ⟨.opened now ready, .archive⟩
  | begins =>
    cases hr
    cases h with
    | opened _ ready => exact ⟨.going (lasts _ _ ready), .begins⟩
  | calls =>
    cases h with
    | going h =>
      rw [Prog.interp_op, Prog.wp_bind] at h
      obtain ⟨⟨x, stores⟩, hx, he⟩ := hr.of_map
      cases he
      have onward := Prog.wp_sound_runs h hx
      exact ⟨.going onward, .calls⟩

end Live.Under

namespace System

variable {C : Disk (FileName κ) (Content κ) → Prop}
  {R : Stores κ → Disk (FileName κ) (Content κ) → Prop}
  {Q : HsmResult EntityState × Stores κ → Disk (FileName κ) (Content κ) → Prop}

/-- A process that can go on until it has answered, and does not go on for ever, answers. -/
theorem Goes.answers (ends : Acc (fun sys' sys => Goes π roots id c sys sys') sys)
    (progress : ∀ sys', Relation.ReflTransGen (Goes π roots id c) sys sys' →
      (∃ r, sys'.Answers r) ∨ ∃ sys'', Goes π roots id c sys' sys'') :
    ∃ sys' r, Relation.ReflTransGen (Goes π roots id c) sys sys' ∧ sys'.Answers r := by
  induction ends with
  | intro sys _ ih =>
    rcases progress sys .refl with ⟨r, hr⟩ | ⟨sys', hg⟩
    · exact ⟨sys, r, .refl, hr⟩
    · obtain ⟨sys'', r, hs, hr⟩ := ih sys' hg fun _ hs => progress _ (.head hg hs)
      exact ⟨sys'', r, .head hg hs, hr⟩

theorem Goes.under
    (lasts : ∀ stores s, R stores s → (c.workflow.locally stores).wp (fsMachine π) C Q s)
    (h : Goes π roots id c sys sys') (hu : Live.Under π roots id C R Q sys.disk sys.live) :
    Live.Under π roots id C R Q sys'.disk sys'.live := by
  cases h with
  | acts hl hr => exact (hu.goes hl lasts hr).1

/-- While names are left, the call has answered or the process can go on. -/
theorem progress (supplies : π.Supplies) (left : sys.disk.Roomy)
    (hu : Live.Under π roots id C R Q sys.disk sys.live) :
    (∃ r, sys.Answers r) ∨ ∃ sys', Goes π roots id c sys sys' := by
  obtain ⟨s, l, g⟩ := sys
  have goes : ∀ {p}, Live.Tries roots id c l p → ∃ sys', Goes π roots id c ⟨s, l, g⟩ sys' := by
    intro p hl
    obtain ⟨⟨l', done⟩, s', hr⟩ := Prog.supplied_runs supplies p left
    obtain rfl := hl.quiet hr
    exact ⟨_, .acts hl hr⟩
  cases hu with
  | closed => exact .inr (goes .storage)
  | opening => exact .inr (goes .archive)
  | opened => exact .inr (goes .begins)
  | @going self archive p after =>
    cases p with
    | ret r => exact .inl ⟨r, after, rfl⟩
    | op o k => exact .inr (goes .calls)

/-- No process goes on for ever. -/
theorem Goes.ends
    (lasts : ∀ stores s, R stores s → (c.workflow.locally stores).wp (fsMachine π) C Q s)
    (hu : Live.Under π roots id C R Q sys.disk sys.live) :
    Acc (fun sys' sys => Goes π roots id c sys sys') sys := by
  have ends := Live.nears_ends (c := c) sys.live
  generalize hl : sys.live = l at ends
  induction ends generalizing sys with
  | intro l _ ih =>
    refine ⟨_, fun sys' h => ?_⟩
    cases h with
    | acts hl' hr =>
      obtain ⟨hu', nears⟩ := hu.goes hl' lasts hr
      exact ih _ (hl ▸ nears) hu' rfl

theorem Tries.tree (h : Tries π roots id c sys sys') (tree : sys.disk.Tree) : sys'.disk.Tree := by
  cases h with
  | goes h =>
    cases h with
    | acts hl hr => exact hr.tree tree
  | dies hl hc => exact hc.tree tree
  | falls => exact tree

theorem Step.names {root : Dir} (h : Step π (.mortal root) roots sys sys')
    (left : sys.disk.Roomy) : sys'.disk.Roomy := by
  cases h with
  | acts _ hr => exact left.runs hr
  | dies _ hc hx =>
    cases hx
    exact (left.cuts hc).reboot

theorem Steps.names {root : Dir} (h : Steps π (.mortal root) roots sys sys')
    (left : sys.disk.Roomy) : sys'.disk.Roomy := by
  induction h with
  | refl => exact left
  | tail _ h ih => exact h.names ih

/-- Where a disk that is left can be opened again, the call stays under way. -/
theorem Tries.under
    (lasts : ∀ stores s, R stores s → (c.workflow.locally stores).wp (fsMachine π) C Q s)
    (again : ∀ s, C s → s.Tree → (∀ d n, s.locked d n = false) →
      Endures (fsMachine π) C (HsmEngine.openStores roots id) s R)
    (reboots : ∀ s, C s → C s.reboot) (h : Tries π roots id c sys sys') (tree : sys.disk.Tree)
    (hu : Live.Under π roots id C R Q sys.disk sys.live) :
    Live.Under π roots id C R Q sys'.disk sys'.live := by
  cases h with
  | goes h => exact h.under lasts hu
  | dies hl hc => exact .closed (again _ (reboots _ (hu.cut hl hc)) (hc.tree tree) fun _ _ => rfl)
  | falls => exact .closed (again _ (reboots _ hu.now) tree fun _ _ => rfl)

end System

/-! ## What the call asks of the storage -/

def EngineCall.context : EngineCall → OperationContext
  | .archive ctx _ _ => ctx
  | .release ctx _ => ctx
  | .«recall» ctx _ _ => ctx

def EngineCall.data : EngineCall → DataKey
  | .archive _ data _ => data
  | .release _ expected => expected.data
  | .«recall» _ expected _ => expected.data

/-- The requests that the call makes. -/
def EngineCall.Requests : EngineCall → Request → Prop
  | .archive ctx data _, r => r = .step ctx (.prepareArchive data) ∨
      ∃ view receipt, r = .step ctx (.commitArchive view receipt)
  | .release ctx expected, r => r = .step ctx (.release expected)
  | .«recall» ctx expected _, r => (∃ anchor, r = .step ctx (.prepareRecall expected anchor)) ∨
      ∃ target evidence, r = .step ctx (.commitRecall target evidence)

def EngineCall.Asks (c : EngineCall) : Call → Prop
  | .storage sc => ∀ r, sc.request = some r → c.Requests r
  | _ => True

omit [DecidableEq κ] [KeyHash κ] [Crates] in
open HsmEngine in
theorem EngineCall.within (c : EngineCall) : c.workflow.run.Within c.Asks := by
  cases c with
  | archive ctx data key =>
    refine (traces_archive.mono (fun _ o h => ?_) fun _ _ h => h).within
    cases h <;> simp [Asks, Requests, StorageCall.request]
  | release ctx expected =>
    refine (traces_release.mono (fun _ o h => ?_) fun _ _ h => h).within
    cases h <;> simp [Asks, Requests, StorageCall.request]
  | «recall» ctx expected key =>
    refine (traces_recall.mono (fun _ o h => ?_) fun _ _ h => h).within
    cases h <;> simp [Asks, Requests, StorageCall.request]

/-- Every version of the metadata satisfies `P`, and what is left of the call asks no more than
the call does. -/
structure System.Minds (roots : Roots) (c : EngineCall) (P : State κ → Prop) (sys : System κ) :
    Prop where
  store : Holding roots.storage P sys.disk sys.live.storage
  born : Born roots.storage sys.disk
  calls : ∀ p after, sys.live.engines = p :: after → p.Within c.Asks

/-- The requests of the call keep `P`. -/
def EngineCall.Keeps (root : Dir) (c : EngineCall) (P : State κ → Prop) : Prop :=
  ∀ fresh st request answer next, c.Requests request → P st →
    Settles root fresh st request answer (some next) → P next

namespace System.Minds

variable {P : State κ → Prop}

theorem goes (keeps : c.Keeps roots.storage P)
    (solid : ∃ begun, Vault.Solid roots.archive ⟨sys.disk, sys.live.archive, begun⟩)
    (h : System.Goes π roots id c sys sys') (hm : sys.Minds roots c P) :
    sys'.Minds roots c P := by
  obtain ⟨begun, solid⟩ := solid
  obtain ⟨store, born, calls⟩ := hm
  cases h with
  | @acts s s' l l' g p hl hr =>
    have aside : ∀ {K : Dir → FileName κ → Prop} {l' : Live κ}, Frame K s s' →
        K roots.storage .state → l'.storage = l.storage →
        (∀ p after, l'.engines = p :: after → p.Within c.Asks) →
        System.Minds roots c P ⟨s', l', g⟩ := fun hf hk hl he =>
      ⟨hl ▸ store.frame hf hk, born.frame hf hk, he⟩
    cases hl with
    | storage =>
      obtain ⟨x, hx, he⟩ := hr.of_map
      cases he
      obtain ⟨⟨cells, hb⟩, ho⟩ := Prog.wp_sound_runs (wp_open (π := π) store.cells fun hn =>
        (born.1 (hn.resolve_left nofun)).elim) hx
      cases x with
      | error e => exact ⟨.closed cells, hb born, nofun⟩
      | ok self =>
        obtain ⟨hroot, -, hp, hs⟩ := ho self rfl
        exact ⟨.of_safe hroot hs hp, hb born, nofun⟩
    | archive =>
      obtain ⟨x, hx, he⟩ := hr.of_map
      cases he
      have off := ((open_opening solid.tree).2 _ _ hx).1.off
      exact aside off ⟨fun h => h, roots.apart'⟩ rfl nofun
    | begins =>
      cases hr
      refine aside (.refl s) (K := fun _ _ => True) trivial rfl ?_
      rintro p after ⟨⟩
      exact c.within
    | @calls self archive o k after =>
      obtain ⟨⟨x, t⟩, hx, he⟩ := hr.of_map
      cases he
      obtain ⟨asks, onward⟩ := calls _ _ rfl
      have onward : ∀ p after', k x :: after = p :: after' → p.Within c.Asks := by
        rintro _ _ ⟨⟩
        exact onward x
      obtain ⟨hroot, -⟩ := solid.handle archive rfl
      cases o with
      | storage sc =>
        rcases storageCall_runs hx with ⟨rfl, ⟨-, rfl, rfl⟩ | ⟨request, answer, hc, hx⟩⟩
        · exact ⟨store, born, onward⟩
        · obtain ⟨hh, hb⟩ := store.call hx (fun _ _ _ hp => hp) (fun _ _ _ hp => hp)
            fun _ _ _ hs _ hp => keeps _ _ _ _ _ (asks request hc) hp hs
          exact ⟨hh, hb (.inl born), onward⟩
      | backend b =>
        obtain ⟨rfl, hb⟩ := backend_runs hx
        have off := (LocalArchive.backendCall_runs hb).1.off (hroot ▸ solid.stored)
        exact aside off ⟨fun h => h, hroot ▸ roots.apart'⟩ rfl onward
      | copy ctx source destination =>
        obtain ⟨rfl, hcopy, hc⟩ := copy_runs hx
        exact aside (hcopy.beside hc.tree).files ⟨fun h => h, List.suffix_refl _, nofun⟩ rfl onward

theorem dies (keeps : c.Keeps roots.storage P)
    (solid : ∃ begun, Vault.Solid roots.archive ⟨sys.disk, sys.live.archive, begun⟩)
    {p : Prog (LocalSig κ) (Live κ × List (String × Bytes))}
    (hl : Live.Tries roots id c sys.live p) (hc : Cuts (fsMachine π) p sys.disk s')
    (hm : sys.Minds roots c P) : System.Minds roots c P ⟨s'.reboot, .dead, g⟩ := by
  obtain ⟨begun, solid⟩ := solid
  obtain ⟨store, born, calls⟩ := hm
  obtain ⟨s, l, g'⟩ := sys
  have dead : Cells roots.storage P s' ∧ (Born roots.storage s → Born roots.storage s') →
      System.Minds roots c P ⟨s'.reboot, .dead, g⟩ := fun ⟨cells, hb⟩ =>
    ⟨.closed (cells.frame (K := fun _ _ => True) (Disk.frame_reboot _) trivial),
      (hb born).frame (K := fun _ _ => True) (Disk.frame_reboot _) trivial, nofun⟩
  have aside : ∀ {K : Dir → FileName κ → Prop}, Frame K s s' → K roots.storage .state →
      System.Minds roots c P ⟨s'.reboot, .dead, g⟩ := fun hf hk =>
    dead ⟨store.cells.frame hf hk, fun hb => hb.frame hf hk⟩
  cases hl with
  | storage =>
    have kept := Prog.wp_sound_cuts (wp_open (π := π) store.cells fun hn =>
      (born.1 (hn.resolve_left nofun)).elim) hc.of_map
    exact dead kept
  | archive =>
    exact aside ((open_opening solid.tree).1 _ hc.of_map).off ⟨fun h => h, roots.apart'⟩
  | begins =>
    cases hc
    exact aside (.refl s) (K := fun _ _ => True) trivial
  | @calls self archive o k after =>
    have hc := hc.of_map
    obtain ⟨asks, -⟩ := calls _ _ rfl
    obtain ⟨hroot, -⟩ := solid.handle archive rfl
    cases o with
    | storage sc =>
      rcases storageCall_cuts hc with ⟨-, rfl⟩ | ⟨request, hr, hc⟩
      · exact aside (.refl _) (K := fun _ _ => True) trivial
      · exact dead (store.cut hc (fun _ _ hp => hp) (fun _ _ hp => hp)
          fun _ _ hs _ hp => keeps _ _ _ _ _ (asks request hr) hp hs)
    | backend b =>
      have off := (LocalArchive.backendCall_cuts (backend_cuts hc)).off (hroot ▸ solid.stored)
      exact aside off ⟨fun h => h, hroot ▸ roots.apart'⟩
    | copy ctx source destination =>
      exact aside ((copy_cuts hc).beside hc.tree).files ⟨fun h => h, List.suffix_refl _, nofun⟩

omit [DecidableEq κ] [KeyHash κ] [Crates] in
theorem falls {s : Disk (FileName κ) (Content κ)} (hm : System.Minds roots c P ⟨s, l, g⟩) :
    System.Minds roots c P ⟨s.reboot, .dead, g⟩ :=
  ⟨.closed (hm.store.cells.frame (K := fun _ _ => True) (Disk.frame_reboot _) trivial),
    hm.born.frame (K := fun _ _ => True) (Disk.frame_reboot _) trivial, nofun⟩

theorem tries (keeps : c.Keeps roots.storage P)
    (solid : ∃ begun, Vault.Solid roots.archive ⟨sys.disk, sys.live.archive, begun⟩)
    (h : System.Tries π roots id c sys sys') (hm : sys.Minds roots c P) :
    sys'.Minds roots c P := by
  cases h with
  | goes h => exact hm.goes keeps solid h
  | dies hl hc => exact dies keeps solid hl hc hm
  | falls => exact hm.falls

end System.Minds

/-! ## A call under way -/

/-- In a reachable state both stores are open and healthy, no payload is being transferred, and
names are left. -/
structure System.Ready (π₀ : Policy (FileName κ) (Content κ)) (roots : Roots)
    (store : LocalStorage κ) (archive : LocalArchive) (sys : System κ) : Prop where
  reachable : System.Reachable π₀ (.mortal roots.archive) roots sys
  fresh : π₀.Fresh
  storage : sys.live.storage = some store
  archive : sys.live.archive = some archive
  healthy : store.poisoned = false
  idle : ∀ d, sys.disk.locked d .transferLock = false
  names : sys.disk.Roomy

namespace System.Ready

variable {π₀ : Policy (FileName κ) (Content κ)} {self : LocalStorage κ} {archive : LocalArchive}
  (h : sys.Ready π₀ roots self archive)
include h

theorem kept (fresh : π.Fresh) : sys.Kept (upkeep π roots fresh) :=
  (h.reachable.upkept h.fresh).turn fresh

theorem serving : Stores.Serving roots ⟨self, archive⟩ sys.disk :=
  (h.kept h.fresh).serving (h.reachable.roomy h.fresh) h.storage h.archive h.healthy h.idle

theorem safe : self.state.Safe roots.storage (fun r => ∃ u b, Enduring roots.archive r u b sys.disk)
    sys.imports sys.disk := ((h.kept h.fresh).store.cached self h.storage).1

theorem orderly : self.state.Orderly roots.storage :=
  ((h.kept h.fresh).store.cached self h.storage).2

theorem named : archive.id ≠ "" := by
  obtain ⟨begun, vault⟩ := (h.kept h.fresh).vault
  exact (vault.seats archive h.archive).named

end System.Ready

/-- Whatever a process has in hand, when it dies the next one can open both stores again, with the
metadata as they are. -/
theorem System.Reachable.reopens {π₀ : Policy (FileName κ) (Content κ)} {self : LocalStorage κ}
    {archive : LocalArchive} (h : System.Reachable π₀ (.mortal roots.archive) roots sys)
    (fresh : π₀.Fresh) (offers : π₀.Offers) (hs : sys.live.storage = some self)
    (ha : sys.live.archive = some archive) (healthy : self.poisoned = false)
    (names : sys.disk.Roomy) : ∃ (self' : LocalStorage κ) (sys' : System κ),
      sys'.Ready π₀ roots self' archive ∧ self'.state = self.state ∧
      Frame (fun _ n => ¬ n.IsTemp ∧ n ≠ .state ∧ n ≠ .backendId) sys.disk sys'.disk := by
  have kept := h.upkept fresh
  obtain ⟨s, l, g⟩ := sys
  obtain ⟨begun, solid, seats, -⟩ := kept.vault
  have tree : s.Tree := solid.tree
  have seated : Seated roots.archive archive.id s := seats archive ha
  have safe : s.Safe roots.storage .state (.state self.state) := kept.store.safe self hs healthy
  have there : s.dir roots.storage = true :=
    Disk.dir_of_lookup (n := .state) (by simp [safe.1])
  have cells : Cells roots.storage _ s := kept.store.cells
  let t : Errand κ := ⟨roots, archive.id, seated.named, fun _ _ => True, fun _ _ => trivial⟩
  have paused : t.Paused s :=
    { top := tree.suffix there List.nil_suffix
      identifies := .of_content seated.named ⟨true, seated.identity.1⟩
      born := .of_safe safe
      cells := cells.mono fun _ hv => ⟨hv.2.schema, trivial⟩ }
  obtain ⟨x, s₂, hr⟩ := Prog.supplied_runs plain_supplies
    (HsmEngine.openStores roots archive.id : Io κ (Stores κ)).run (Disk.Roomy.reboot names)
  have names₂ : s₂.Roomy := (Disk.Roomy.reboot names).runs hr
  obtain ⟨stores, rfl, running, visible, frame⟩ := (Errand.opens (t := t) plain_kind.toSmooth
    (paused.frame (Disk.frame_reboot s)) tree fun _ _ => rfl).runs hr
  have offered : ∀ {α : Type} {p : Prog (LocalSig κ) α} {a s s'},
      Runs (fsMachine (plain : Policy (FileName κ) (Content κ))) p s a s' →
      Runs (fsMachine π₀) p s a s' := offers.runs (ρ := plain) (fun _ _ hu => hu.1) rfl rfl
  rw [HsmEngine.openStores, Prog.run_bind, Runs.bind_iff] at hr
  obtain ⟨y, s₁, ho, hr⟩ := hr
  cases y with
  | error => cases hr
  | ok self' =>
    dsimp only at hr
    rw [Prog.run_bind, Runs.bind_iff] at hr
    obtain ⟨z, s₂', ha', hr⟩ := hr
    cases z with
    | error => cases hr
    | ok archive' =>
      cases hr
      have state : self.state = self'.state := by
        have := safe.1.symm.trans visible
        simpa using this
      obtain rfl : archive' = archive := by
        obtain ⟨root, id⟩ := archive'
        obtain rfl : root = roots.archive := running.root'
        obtain rfl : id = archive.id := running.backend
        obtain ⟨hroot, -⟩ := solid.handle archive ha
        rw [← hroot]
      have dies : System.Step π₀ (.mortal roots.archive) roots ⟨s, l, g⟩ ⟨s.reboot, .dead, g⟩ :=
        .dies (.collects hs) (.here _ s) rfl
      have opensStorage : System.Step π₀ (.mortal roots.archive) roots ⟨s.reboot, .dead, g⟩
          ⟨s₁, ⟨some self', none, []⟩, g⟩ :=
        .acts (.opensStorage rfl) (Runs.bind_iff.mpr ⟨_, _, offered ho, .ret _ _⟩)
      have opensArchive : System.Step π₀ (.mortal roots.archive) roots
          ⟨s₁, ⟨some self', none, []⟩, g⟩ ⟨s₂, ⟨some self', some archive', []⟩, g⟩ :=
        .acts (.opensArchive archive'.id trivial rfl)
          (Runs.bind_iff.mpr ⟨_, _, offered ha', .ret _ _⟩)
      obtain ⟨s₀, bare, none, steps⟩ := h
      refine ⟨self', ⟨s₂, ⟨some self', some archive', []⟩, g⟩, ?_, state.symm,
        (Disk.frame_reboot s).trans frame⟩
      exact
        { reachable := ⟨s₀, bare, none, ((steps.tail dies).tail opensStorage).tail opensArchive⟩
          fresh := fresh
          storage := rfl
          archive := rfl
          healthy := running.storage.healthy
          idle := running.storage.idle
          names := names₂ }

/-- What holds all along of an errand's call. -/
structure System.Underway (fresh : π.Fresh) (t : Errand κ) (c : EngineCall) (P : State κ → Prop)
    (Q : HsmResult EntityState × Stores κ → Disk (FileName κ) (Content κ) → Prop)
    (sys : System κ) : Prop where
  kept : sys.Kept (upkeep π t.roots fresh)
  minds : sys.Minds t.roots c P
  under : Live.Under π t.roots t.backend t.Paused t.Running Q sys.disk sys.live
  names : sys.disk.Roomy

namespace System

variable {fresh : π.Fresh} {t : Errand κ} {P : State κ → Prop}
  {Q : HsmResult EntityState × Stores κ → Disk (FileName κ) (Content κ) → Prop}

theorem Underway.tree (u : sys.Underway fresh t c P Q) : sys.disk.Tree := by
  obtain ⟨begun, vault⟩ := u.kept.vault
  exact vault.solid.tree

theorem Tries.underway (smooth : π.Smooth) (keeps : c.Keeps t.roots.storage P)
    (lasts : ∀ stores s, t.Running stores s →
      (c.workflow.locally stores).wp (fsMachine π) t.Paused Q s)
    (h : Tries π t.roots t.backend c sys sys') (u : sys.Underway fresh t c P Q) :
    sys'.Underway fresh t c P Q where
  kept := Steps.kept (.single h.step) u.kept
  minds := by
    obtain ⟨begun, vault⟩ := u.kept.vault
    exact u.minds.tries keeps ⟨begun, vault.solid⟩ h
  under := h.under lasts (fun s hp tree unlocked => (Errand.opens smooth hp tree unlocked).mono
    (fun _ hp => hp) fun _ _ ho => ho.1) (fun s hp => hp.frame (Disk.frame_reboot s)) u.tree u.under
  names := h.step.names u.names

theorem Underway.steps (smooth : π.Smooth) (keeps : c.Keeps t.roots.storage P)
    (lasts : ∀ stores s, t.Running stores s →
      (c.workflow.locally stores).wp (fsMachine π) t.Paused Q s)
    (u : sys.Underway fresh t c P Q)
    (h : Relation.ReflTransGen (Tries π t.roots t.backend c) sys sys') :
    sys'.Underway fresh t c P Q := by
  induction h with
  | refl => exact u
  | tail _ h ih => exact h.underway smooth keeps lasts ih

/-- The call is begun at a stage of the errand. -/
theorem Ready.underway {π₀ : Policy (FileName κ) (Content κ)} {self : LocalStorage κ}
    {archive : LocalArchive} (fresh : π.Fresh) (ready : sys.Ready π₀ t.roots self archive)
    (running : t.Running ⟨self, archive⟩ sys.disk) (holds : P self.state)
    (lasts : ∀ stores s, t.Running stores s →
      (c.workflow.locally stores).wp (fsMachine π) t.Paused Q s) :
    (sys.beginning c).Underway fresh t c P Q where
  kept := Steps.kept (.single (beginning_step ready.storage ready.archive)) (ready.kept fresh)
  minds := by
    have hroot : self.root = t.roots.storage := running.root
    have safe : sys.disk.Safe self.root .state (.state self.state) := running.storage.safe
    refine ⟨?_, hroot ▸ .of_safe safe, ?_⟩
    · rw [beginning, ready.storage]
      exact .of_safe hroot (hroot ▸ safe) holds
    · rintro p after ⟨⟩
      exact c.within
  under := by
    have live : (sys.beginning c).live =
        ⟨some self, some archive, c.workflow.run :: sys.live.engines⟩ := by
      rw [beginning, ready.storage, ready.archive]
    rw [live]
    exact .going (lasts _ _ running)
  names := ready.names

end System

end HsmRs
