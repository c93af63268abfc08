import HsmRs.Lib.FileSystem

/-! # What operations leave alone

A set of paths that no operation of a program writes keeps its visible files,
and their safe versions only catch up. This is checked operation by operation
and holds of completed runs and of every cut.
-/

namespace HsmRs

variable {ν β ε α : Type}

/-- The same content, at least as synced. -/
def Upgrade : Option (File β) → Option (File β) → Prop
  | none, none => True
  | some f, some g => g.content = f.content ∧ (f.synced = true → g.synced = true)
  | _, _ => False

namespace Upgrade

@[simp] theorem refl (a : Option (File β)) : Upgrade a a := by
  cases a <;> simp [Upgrade]

theorem trans {a b c : Option (File β)} (h : Upgrade a b) (h' : Upgrade b c) : Upgrade a c := by
  cases a <;> cases b <;> cases c <;> simp_all [Upgrade]

@[simp] theorem none_left {a : Option (File β)} : Upgrade none a ↔ a = none := by
  cases a <;> simp [Upgrade]

theorem some_left {f : File β} {a : Option (File β)} (h : Upgrade (some f) a) :
    ∃ g, a = some g ∧ g.content = f.content ∧ (f.synced = true → g.synced = true) := by
  cases a with
  | none => exact h.elim
  | some g => exact ⟨g, rfl, h⟩

theorem synced {c : β} {a : Option (File β)} (h : Upgrade (some ⟨c, true⟩) a) :
    a = some ⟨c, true⟩ := by
  obtain ⟨⟨c', b⟩, rfl, rfl, hb⟩ := h.some_left
  have : b = true := hb rfl
  rw [this]

theorem none_right {a : Option (File β)} (h : Upgrade a none) : a = none := by
  cases a with
  | none => rfl
  | some f => exact h.elim

theorem some_right {f : File β} {a : Option (File β)} (h : Upgrade a (some f)) :
    ∃ g, a = some g ∧ f.content = g.content ∧ (g.synced = true → f.synced = true) := by
  cases a with
  | none => exact h.elim
  | some g => exact ⟨g, rfl, h⟩

end Upgrade

/-- The paths in `K` keep their visible files, and their safe versions are old or catch
up with the visible ones; their directories stay. -/
structure Frame (K : Dir → ν → Prop) (s s' : Disk ν β) : Prop where
  now : ∀ d n, K d n → Upgrade (s.lookup d n) (s'.lookup d n)
  safe : ∀ d n, K d n → s'.safeFile d n = s.safeFile d n ∨ Upgrade (s.lookup d n) (s'.safeFile d n)
  dir : ∀ d n, K d n → s.dir d = true → s'.dir d = true
  safeDir : ∀ d n, K d n → s.dir d = true → s.safeDir d = true → s'.safeDir d = true
  issued : ∀ u, s.issued u = true → s'.issued u = true

def Disk.reads (s : Disk ν β) (d : Dir) (n : ν) : Option β := (s.lookup d n).map File.content

theorem Disk.reads_of {s : Disk ν β} {d : Dir} {n : ν} {c : β} {x : Bool}
    (h : s.lookup d n = some ⟨c, x⟩) : s.reads d n = some c := by
  rw [reads, h]
  rfl

theorem Disk.reads_eq_some {s : Disk ν β} {d : Dir} {n : ν} {c : β} :
    s.reads d n = some c ↔ ∃ x, s.lookup d n = some ⟨c, x⟩ := by
  constructor
  · intro h
    obtain ⟨⟨c', x⟩, hl, rfl⟩ := Option.map_eq_some_iff.mp h
    exact ⟨x, hl⟩
  · rintro ⟨x, h⟩
    exact reads_of h

theorem Disk.reads_eq_none {s : Disk ν β} {d : Dir} {n : ν} :
    s.reads d n = none ↔ s.lookup d n = none := Option.map_eq_none_iff

theorem Upgrade.content {a b : Option (File β)} (h : Upgrade a b) :
    b.map File.content = a.map File.content := by
  cases a <;> cases b <;> simp_all [Upgrade]

namespace Frame

variable {K K' : Dir → ν → Prop} {s s' s'' : Disk ν β}

theorem refl (s : Disk ν β) : Frame K s s :=
  ⟨fun _ _ _ => .refl _, fun _ _ _ => .inl rfl, fun _ _ _ h => h, fun _ _ _ _ h => h,
    fun _ h => h⟩

theorem trans (h : Frame K s s') (h' : Frame K s' s'') : Frame K s s'' where
  now d n hk := (h.now d n hk).trans (h'.now d n hk)
  safe d n hk := by
    rcases h'.safe d n hk with he | hu
    · rw [he]
      exact h.safe d n hk
    · exact .inr ((h.now d n hk).trans hu)
  dir d n hk hd := h'.dir d n hk (h.dir d n hk hd)
  safeDir d n hk hd hs := h'.safeDir d n hk (h.dir d n hk hd) (h.safeDir d n hk hd hs)
  issued u hu := h'.issued u (h.issued u hu)

theorem reads (h : Frame K s s') {d : Dir} {n : ν} (hk : K d n) : s'.reads d n = s.reads d n :=
  (h.now d n hk).content

theorem mono (h : Frame K s s') (hk : ∀ d n, K' d n → K d n) : Frame K' s s' where
  now d n h' := h.now d n (hk d n h')
  safe d n h' := h.safe d n (hk d n h')
  dir d n h' := h.dir d n (hk d n h')
  safeDir d n h' := h.safeDir d n (hk d n h')
  issued := h.issued

end Frame

/-- The operation writes no path of `K`. -/
def FsOp.Spares (K : Dir → ν → Prop) : FsOp ν β → Prop
  | .create d n _ => ¬ K d n
  | .rename d a b => ¬ K d a ∧ ¬ K d b
  | .hardLink d _ b => ¬ K d b
  | .removeFile d n => ¬ K d n
  | .removeDirAll d => ∀ d' n, K d' n → ¬ d <:+ d'
  | .transfer _ dst n => ¬ K dst n
  | _ => True

theorem FsOp.Spares.mono {K K' : Dir → ν → Prop} {o : FsOp ν β} (h : o.Spares K)
    (hk : ∀ d n, K' d n → K d n) : o.Spares K' := by
  cases o with
  | create d n c => exact fun h' => h (hk _ _ h')
  | rename d a b => exact ⟨fun h' => h.1 (hk _ _ h'), fun h' => h.2 (hk _ _ h')⟩
  | hardLink d a b => exact fun h' => h (hk _ _ h')
  | removeFile d n => exact fun h' => h (hk _ _ h')
  | removeDirAll d => exact fun d' n h' => h d' n (hk _ _ h')
  | transfer src dst n => exact fun h' => h (hk _ _ h')
  | _ => trivial

namespace Disk

section Observe

variable [DecidableEq ν] (s : Disk ν β) (d d' : Dir) (n n' : ν) (f : Option (File β))

@[simp] theorem lookup_put : (s.put d n f).lookup d' n' =
    if d' = d ∧ n' = n then (if s.dir d then f else none) else s.lookup d' n' := by
  by_cases h : d' = d ∧ n' = n
  · obtain ⟨rfl, rfl⟩ := h
    simp [lookup, put]
  · simp [lookup, put, h]

omit [DecidableEq ν] in
@[simp] theorem lookup_mkdir (h : s.dir d = false) : (s.mkdir d).lookup d' n = s.lookup d' n := by
  simp only [lookup, mkdir]
  by_cases hd : d' = d <;> simp_all

omit [DecidableEq ν] in
@[simp] theorem lookup_flush : (s.flush d).lookup d' n = s.lookup d' n := rfl

@[simp] theorem lookup_setLock (b : Bool) : (s.setLock d n b).lookup d' n' = s.lookup d' n' := rfl

omit [DecidableEq ν] in
@[simp] theorem lookup_issue (u : String) : (s.issue u).lookup d n = s.lookup d n := rfl

@[simp] theorem dir_put : (s.put d n f).dir = s.dir := rfl
@[simp] theorem safeDir_put : (s.put d n f).safeDir = s.safeDir := rfl
@[simp] theorem safeFile_put : (s.put d n f).safeFile = s.safeFile := rfl
@[simp] theorem locked_put : (s.put d n f).locked = s.locked := rfl
@[simp] theorem issued_put : (s.put d n f).issued = s.issued := rfl

end Observe

variable [DecidableEq ν] {K : Dir → ν → Prop} {s s' : Disk ν β}

theorem frame_put {d : Dir} {n : ν} {f : Option (File β)} (h : ¬ K d n) :
    Frame K s (s.put d n f) where
  now d' n' hk := by
    have : ¬ (d' = d ∧ n' = n) := by
      rintro ⟨rfl, rfl⟩
      exact h hk
    simp [this]
  safe _ _ _ := .inl rfl
  dir _ _ _ hd := hd
  safeDir _ _ _ _ hs := hs
  issued _ hu := hu

theorem frame_sync {d : Dir} {n : ν} {f : File β} (h : s.lookup d n = some f) :
    Frame K s (s.put d n (some { f with synced := true })) where
  now d' n' _ := by
    by_cases he : d' = d ∧ n' = n
    · obtain ⟨rfl, rfl⟩ := he
      have hd : s.dir d' = true := by
        by_contra hd
        simp [lookup, hd] at h
      simp [h, hd, Upgrade]
    · simp [he]
  safe _ _ _ := .inl rfl
  dir _ _ _ hd := hd
  safeDir _ _ _ _ hs := hs
  issued _ hu := hu

omit [DecidableEq ν] in
theorem frame_mkdir {d : Dir} (h : s.dir d = false) : Frame K s (s.mkdir d) where
  now d' n' _ := by simp [h]
  safe _ _ _ := .inl rfl
  dir d' _ _ hd := by simp [mkdir, hd]
  safeDir _ _ _ _ hs := hs
  issued _ hu := hu

omit [DecidableEq ν] in
theorem flushed_flush (s : Disk ν β) (d : Dir) : Flushed d s (s.flush d) where
  dir := rfl
  file := rfl
  safeDir d' := by
    simp only [flush]
    split <;> simp_all
  safeFile d' n := by
    simp only [flush]
    split <;> simp_all
  locked := rfl
  issued := rfl

omit [DecidableEq ν] in
theorem Flushed.frame {d : Dir} (h : Flushed d s s') : Frame K s s' where
  now d' n _ := by simp [lookup, h.dir, h.file]
  safe d' n _ := by
    rcases h.safeFile d' n with he | ⟨_, he⟩
    · exact .inl he
    · exact .inr (by simp [he])
  dir d' _ _ hd := by rw [h.dir]; exact hd
  safeDir d' _ _ hd hs := by
    rcases h.safeDir d' with he | ⟨_, he⟩
    · rw [he]; exact hs
    · rw [he]; exact hd
  issued u hu := by rw [h.issued]; exact hu

omit [DecidableEq ν] in
theorem pruned_prune (s : Disk ν β) (d : Dir) : Pruned d s (s.prune d) where
  outside d' hd := by simp [prune, hd]
  inside d' hd := by
    simp only [prune] at hd
    split at hd <;> simp_all
  parent x p hd hp := by
    have : ¬ d <:+ x :: p := fun h => by simp [prune, h] at hd
    have : ¬ d <:+ p := fun h => this (h.trans (List.suffix_cons x p))
    simpa [prune, this] using hp
  file _ _ := .inl rfl
  safeDir := rfl
  safeFile := rfl
  locked := rfl
  issued := rfl

omit [DecidableEq ν] in
theorem Pruned.frame {d : Dir} (h : Pruned d s s') (hk : ∀ d' n, K d' n → ¬ d <:+ d') :
    Frame K s s' where
  now d' n hd := by simp [lookup, (h.outside d' (hk d' n hd)).1, (h.outside d' (hk d' n hd)).2]
  safe d' n _ := .inl (by rw [h.safeFile])
  dir d' n hd hd' := by rw [(h.outside d' (hk d' n hd)).1]; exact hd'
  safeDir d' n _ _ hs := by rw [h.safeDir]; exact hs
  issued u hu := by rw [h.issued]; exact hu

theorem frame_respond {o : FsOp ν β} (u : String) (ho : o.Spares K) :
    Frame K s (s.respond u o).2 := by
  have hdir : ∀ {b : Bool}, ¬ b = true → b = false := fun h => by simpa using h
  cases o with
  | createDir d =>
    simp only [respond]
    split
    · exact .refl s
    · split
      · exact frame_mkdir (hdir ‹_›)
      · exact .refl s
  | create d n c =>
    simp only [respond]
    split
    · split
      · exact frame_put ho
      · exact .refl s
    · exact .refl s
  | syncFile d n =>
    simp only [respond]
    split
    · exact .refl s
    · exact frame_sync ‹_›
  | syncDir d =>
    simp only [respond]
    split
    · exact (flushed_flush s d).frame
    · exact .refl s
  | rename d a b =>
    simp only [respond]
    split
    · exact .refl s
    · exact (frame_put ho.1).trans (frame_put ho.2)
  | hardLink d a b =>
    simp only [respond]
    split
    · exact .refl s
    · exact .refl s
    · exact frame_put ho
  | removeFile d n =>
    simp only [respond]
    split
    · exact .refl s
    · exact frame_put ho
  | removeDirAll d =>
    simp only [respond]
    split
    · exact (pruned_prune s d).frame ho
    · exact .refl s
  | tryLock d n =>
    simp only [respond]
    split
    · exact .refl s
    · exact ⟨fun _ _ _ => .refl _, fun _ _ _ => .inl rfl, fun _ _ _ h => h,
        fun _ _ _ _ h => h, fun _ h => h⟩
  | unlock d n =>
    exact ⟨fun _ _ _ => .refl _, fun _ _ _ => .inl rfl, fun _ _ _ h => h,
      fun _ _ _ _ h => h, fun _ h => h⟩
  | uuid =>
    exact ⟨fun _ _ _ => .refl _, fun _ _ _ => .inl rfl, fun _ _ _ h => h,
      fun _ _ _ _ h => h, fun v hv => by simp [respond, issue, hv]⟩
  | transfer src dst n =>
    simp only [respond]
    split
    · exact .refl s
    · split
      · exact frame_put ho
      · exact .refl s
  | _ => exact .refl s

theorem Tear.frame {o : FsOp ν β} (h : s.Tear o s') (ho : o.Spares K) : Frame K s s' := by
  cases h with
  | before => exact .refl s
  | after _ u => exact frame_respond u ho
  | create => exact frame_put ho
  | syncDir h => exact h.frame
  | removeDirAll h => exact h.frame ho
  | transfer => exact frame_put ho

end Disk

variable [DecidableEq ν] {K : Dir → ν → Prop} {π : Env ν β} {s s' : Disk ν β}

theorem FsStep.frame {o : FsOp ν β} {x : o.Ans} (h : FsStep π s o x s') (ho : o.Spares K) :
    Frame K s s' := by
  cases h with
  | respond _ u => exact Disk.frame_respond u ho
  | fault _ _ _ ht => exact ht.frame ho
  | inexact => exact Disk.frame_put ho
  | unseen => exact .refl s

variable {p : Prog (fsSig ν β) α}

theorem Runs.frame {a : α} (h : Runs π.machine p s a s') (hp : p.Within (FsOp.Spares K)) :
    Frame K s s' :=
  h.kept Frame.refl Frame.trans (fun ho hs => FsStep.frame hs ho) hp

theorem Cuts.frame (h : Cuts π.machine p s s') (hp : p.Within (FsOp.Spares K)) :
    Frame K s s' :=
  h.kept Frame.refl Frame.trans (fun ho hs => FsStep.frame hs ho)
    (fun ho ht => Disk.Tear.frame ht ho)
    hp

def FsOp.NoLook (o : FsOp ν β) : Prop := o.unseen = none

/-- A program that looks at nothing does not notice that looks can fail. -/
theorem Runs.seen {a : α} (h : Runs π.machine p s a s') (hp : p.Within FsOp.NoLook) :
    Runs (fsMachine π.toPolicy) p s a s' := by
  induction h with
  | ret => exact .ret _ _
  | op hs _ ih =>
    refine .op ?_ (ih (hp.2 _))
    cases hs with
    | respond _ u hu => exact .respond _ u hu
    | fault hf hk he ht => exact .fault hf hk he ht
    | inexact hi hd => exact .inexact hi hd
    | unseen _ hx => cases hp.1.symm.trans hx

/-- Names that a run may be given between two records of the names handed out: the
environment has handed them out, and they are on record afterwards. -/
def Given (π : Policy ν β) (i i' : String → Bool) (u : String) : Prop :=
  (∃ s, (∀ v, i v = true → s.issued v = true) ∧ π.uuid s u) ∧ i' u = true

omit [DecidableEq ν] in
theorem Given.mono {π : Policy ν β} {i j i' j' : String → Bool} {u : String} (h : Given π i i' u)
    (hi : ∀ v, j v = true → i v = true) (hi' : ∀ v, i' v = true → j' v = true) :
    Given π j j' u := by
  obtain ⟨⟨s, hs, hu⟩, h'⟩ := h
  exact ⟨⟨s, fun v hv => hs v (hi v hv), hu⟩, hi' u h'⟩

/-- The environment never hands out a name twice. -/
def Policy.Fresh (π : Policy ν β) : Prop := ∀ s u, π.uuid s u → s.issued u = false

omit [DecidableEq ν] in
theorem Given.unissued {π : Policy ν β} {i i' : String → Bool} {u : String}
    (h : Given π i i' u) (hπ : π.Fresh) :
    i u = false := by
  obtain ⟨⟨s, hs, hu⟩, -⟩ := h
  by_contra hi
  have := hs u (by simpa using hi)
  simp [hπ s u hu] at this

/-- Names come from `P`; nothing is said about other answers. -/
def Names (P : String → Prop) : (o : FsOp ν β) → o.Ans → Prop
  | .uuid, u => P u
  | _, _ => True

theorem FsStep.issued {o : FsOp ν β} {x : o.Ans} (h : FsStep π s o x s') {u : String}
    (hu : s.issued u = true) : s'.issued u = true :=
  (h.frame (K := fun _ _ => False) (by cases o <;> simp [FsOp.Spares])).issued u hu

theorem Runs.issued {a : α} (h : Runs π.machine p s a s') {u : String}
    (hu : s.issued u = true) : s'.issued u = true := by
  induction h with
  | ret a s => exact hu
  | op hs _ ih => exact ih (hs.issued hu)

theorem Disk.Tear.issued {o : FsOp ν β} (h : s.Tear o s') {u : String}
    (hu : s.issued u = true) : s'.issued u = true :=
  (h.frame (K := fun _ _ => False) (by cases o <;> simp [FsOp.Spares])).issued u hu

theorem Cuts.issued (h : Cuts π.machine p s s') {u : String} (hu : s.issued u = true) :
    s'.issued u = true := by
  induction h with
  | here p s => exact hu
  | torn ht => exact Disk.Tear.issued ht hu
  | later hs _ ih => exact ih (hs.issued hu)

/-- A run returns what the program can return under the names it is given. -/
theorem Runs.yields {a : α} (h : Runs π.machine p s a s') :
    p.Yields (Names (Given π.toPolicy s.issued s'.issued)) a := by
  induction h with
  | ret a s => rfl
  | @op o k s s₁ s' x a hs hr ih =>
    refine ⟨x, ?_, ih.mono ?_⟩
    · cases o with
      | uuid =>
        obtain ⟨v, hv, hx, rfl⟩ : ∃ v, π.uuid s v ∧ x = v ∧ s₁ = s.issue v := by
          cases hs with
          | respond _ u hu => exact ⟨u, hu rfl, rfl, rfl⟩
          | fault _ _ he _ => simp [FsOp.failure] at he
          | unseen _ he => simp [FsOp.unseen] at he
        subst hx
        exact ⟨⟨s, fun _ h => h, hv⟩, hr.issued (by simp [Disk.issue])⟩
      | _ => trivial
    · intro o x hx
      cases o with
      | uuid => exact Given.mono hx (fun v hv => hs.issued hv) fun _ h => h
      | _ => trivial

/-- A program that writes nothing of `K` is specified by the values it can return. -/
theorem Prog.wp_frame {C : Disk ν β → Prop} {Q : α → Disk ν β → Prop}
    (hp : p.Within (FsOp.Spares K)) (hC : ∀ s', Frame K s s' → C s')
    (hQ : ∀ a s', Runs π.machine p s a s' → Frame K s s' → Q a s') :
    p.wp π.machine C Q s :=
  wp_of_runs (fun a s' h => hQ a s' h (h.frame hp)) fun s' h => hC s' (h.frame hp)

/-- A postcondition may assume that the run has gone as the program can go. -/
theorem Prog.wp_runs {C : Disk ν β → Prop} {Q : α → Disk ν β → Prop}
    (h : p.wp π.machine C (fun a s' => Runs π.machine p s a s' → Q a s') s) :
    p.wp π.machine C Q s :=
  wp_of_runs (fun _ _ hr => wp_sound_runs h hr hr) fun _ hc => wp_sound_cuts h hc

/-! ## Directories -/

def FsOp.NoMkdir : FsOp ν β → Prop
  | .createDir _ => False
  | _ => True

theorem Disk.dir_respond {o : FsOp ν β} {u : String} (ho : o.NoMkdir) {d : Dir}
    (hd : (s.respond u o).2.dir d = true) : s.dir d = true := by
  cases o with
  | createDir => exact ho.elim
  | removeDirAll =>
    simp only [respond] at hd
    split at hd
    · simp only [prune] at hd
      split at hd
      · cases hd
      · exact hd
    · exact hd
  | _ =>
    simp only [respond] at hd
    first
      | exact hd
      | (split at hd <;> first
          | exact hd
          | (split at hd <;> exact hd))

theorem Disk.Tear.dir_of {o : FsOp ν β} (h : s.Tear o s') (ho : o.NoMkdir) {d : Dir}
    (hd : s'.dir d = true) : s.dir d = true := by
  cases h with
  | before => exact hd
  | after _ u => exact dir_respond ho hd
  | create => exact hd
  | syncDir hf => exact hf.dir ▸ hd
  | removeDirAll hp => exact hp.inside d hd
  | transfer => exact hd

theorem Runs.dir_of {a : α} (h : Runs π.machine p s a s')
    (hp : p.Within FsOp.NoMkdir) {d : Dir} (hd : s'.dir d = true) :
    s.dir d = true := by
  induction h with
  | ret => exact hd
  | op hs _ ih =>
    have hd := ih (hp.2 _) hd
    cases hs with
    | respond => exact Disk.dir_respond hp.1 hd
    | fault _ _ _ ht => exact ht.dir_of hp.1 hd
    | inexact => exact hd
    | unseen => exact hd

/-! ## Locks -/

theorem Disk.locked_respond {o : FsOp ν β} {u : String} {d : Dir} {n : ν}
    (hl : s.locked d n = true) (ho : o ≠ .unlock d n) : (s.respond u o).2.locked d n = true := by
  cases o with
  | tryLock d' n' =>
    simp only [respond]
    split
    · exact hl
    · simp [setLock, hl]
  | unlock d' n' =>
    have hn : ¬ (d = d' ∧ n = n') := by
      rintro ⟨rfl, rfl⟩
      exact ho rfl
    simp only [respond, setLock, hn, if_false]
    exact hl
  | _ =>
    simp only [respond]
    first
      | exact hl
      | (split <;> first
          | exact hl
          | (split <;> exact hl))

theorem Disk.Tear.locked {o : FsOp ν β} {d : Dir} {n : ν} (h : s.Tear o s')
    (hl : s.locked d n = true) (ho : o ≠ .unlock d n) : s'.locked d n = true := by
  cases h with
  | before => exact hl
  | after => exact locked_respond hl ho
  | create => exact hl
  | syncDir h => rwa [h.locked]
  | removeDirAll h => rwa [h.locked]
  | transfer => exact hl

end HsmRs
