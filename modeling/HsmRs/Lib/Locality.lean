import HsmRs.Lib.Answers
import HsmRs.Lib.Twins

/-! # Programs that keep to their directories

A program that only touches some directories does the same on every disk that looks
the same there, if it is given the same names and nothing fails; and it leaves all
other directories as they were.
-/

namespace HsmRs

variable {ν β α γ : Type}

/-- The disks look the same in the directories of `P`, those of `Q` exist in both or in
neither, and of the names `N` the same have been handed out. -/
structure Disk.Agrees (P Q : Dir → Prop) (N : String → Prop) (s t : Disk ν β) : Prop where
  dir : ∀ d, P d ∨ Q d → t.dir d = s.dir d
  reads : ∀ d n, P d → t.reads d n = s.reads d n
  locked : ∀ d n, P d → t.locked d n = s.locked d n
  issued : ∀ u, N u → t.issued u = s.issued u

/-- The operation touches directories of `P` only, and of those in `Q` it sees no more than
whether they exist. Removing a tree and transfers are no such operations. -/
def FsOp.Inside (P Q : Dir → Prop) : FsOp ν β → Prop
  | existsDir d | syncDir d | access d => P d ∨ Q d
  | createDir d => P d ∧ (P d.tail ∨ Q d.tail)
  | existsFile d _ | read d _ | create d _ _ | syncFile d _ | rename d _ _ | hardLink d _ _
  | removeFile d _ | tryLock d _ | unlock d _ => P d
  | uuid => True
  | removeDirAll _ | transfer _ _ _ => False

section

variable {P P' Q Q' : Dir → Prop} {N N' : String → Prop} {s s' s'' t : Disk ν β}

namespace Disk.Agrees

theorem refl (s : Disk ν β) : s.Agrees P Q N s :=
  ⟨fun _ _ => rfl, fun _ _ _ => rfl, fun _ _ _ => rfl, fun _ _ => rfl⟩

theorem symm (h : s.Agrees P Q N t) : t.Agrees P Q N s :=
  ⟨fun d hd => (h.dir d hd).symm, fun d n hd => (h.reads d n hd).symm,
    fun d n hd => (h.locked d n hd).symm, fun u hu => (h.issued u hu).symm⟩

theorem trans (h : s.Agrees P Q N s') (h' : s'.Agrees P Q N s'') : s.Agrees P Q N s'' :=
  ⟨fun d hd => (h'.dir d hd).trans (h.dir d hd), fun d n hd =>
    (h'.reads d n hd).trans (h.reads d n hd),
    fun d n hd => (h'.locked d n hd).trans (h.locked d n hd),
    fun u hu => (h'.issued u hu).trans (h.issued u hu)⟩

theorem mono (h : s.Agrees P Q N t) (hP : ∀ d, P' d → P d) (hQ : ∀ d, Q' d → P d ∨ Q d)
    (hN : ∀ u, N' u → N u) : s.Agrees P' Q' N' t :=
  ⟨fun d hd => h.dir d (hd.elim (fun h => .inl (hP d h)) (hQ d)), fun d n hd =>
    h.reads d n (hP d hd),
    fun d n hd => h.locked d n (hP d hd), fun u hu => h.issued u (hN u hu)⟩

/-- Disks are compared one directory at a time. -/
theorem of_each (h : ∀ d, P d → s.Agrees (· = d) (fun _ => False) (fun _ => False) t) :
    s.Agrees P (fun _ => False) (fun _ => False) t :=
  ⟨fun d hd => (h d (hd.resolve_right id)).dir d (.inl rfl), fun d n hd => (h d hd).reads d n rfl,
    fun d n hd => (h d hd).locked d n rfl, fun _ => False.elim⟩

theorem lookup_none (h : s.Agrees P Q N t) {d : Dir} {n : ν} (hd : P d) :
    t.lookup d n = none ↔ s.lookup d n = none := by
  rw [← Disk.reads_eq_none, ← Disk.reads_eq_none, h.reads d n hd]

theorem lookup_some (h : s.Agrees P Q N t) {d : Dir} {n : ν} {f : File β} (hd : P d)
    (hl : s.lookup d n = some f) : ∃ g, t.lookup d n = some g ∧ g.content = f.content := by
  have := h.reads d n hd
  rw [Disk.reads_of (c := f.content) (x := f.synced) hl] at this
  obtain ⟨x, hx⟩ := Disk.reads_eq_some.mp this
  exact ⟨_, hx, rfl⟩

variable [DecidableEq ν]

omit [DecidableEq ν] in
theorem setLock [DecidableEq ν] (h : s.Agrees P Q N t) (d : Dir) (n : ν) (b : Bool) :
    (s.setLock d n b).Agrees P Q N (t.setLock d n b) := by
  refine ⟨h.dir, h.reads, fun d' n' hd => ?_, h.issued⟩
  simp only [Disk.setLock, h.locked d' n' hd]

theorem put (h : s.Agrees P Q N t) {d : Dir} {n : ν} {f g : Option (File β)} (hd : P d)
    (hf : g.map File.content = f.map File.content) : (s.put d n f).Agrees P Q N (t.put d n g) := by
  refine ⟨h.dir, fun d' n' hd' => ?_, h.locked, h.issued⟩
  unfold Disk.reads
  rw [Disk.lookup_put, Disk.lookup_put, h.dir d (.inl hd)]
  split
  · split
    · exact hf
    · rfl
  · exact h.reads d' n' hd'

omit [DecidableEq ν] in
theorem mkdir (h : s.Agrees P Q N t) {d : Dir} (hs : s.dir d = false) (ht : t.dir d = false) :
    (s.mkdir d).Agrees P Q N (t.mkdir d) := by
  refine ⟨fun d' hd => ?_, fun d' n hd => ?_, h.locked, h.issued⟩
  · simp only [Disk.mkdir, h.dir d' hd]
  · unfold Disk.reads
    rw [Disk.lookup_mkdir _ _ _ _ hs, Disk.lookup_mkdir _ _ _ _ ht]
    exact h.reads d' n hd

omit [DecidableEq ν] in
theorem flush (h : s.Agrees P Q N t) (d : Dir) : (s.flush d).Agrees P Q N (t.flush d) :=
  ⟨h.dir, h.reads, h.locked, h.issued⟩

omit [DecidableEq ν] in
theorem issue (h : s.Agrees P Q N t) (u : String) : (s.issue u).Agrees P Q N (t.issue u) := by
  refine ⟨h.dir, h.reads, h.locked, fun v hv => ?_⟩
  simp only [Disk.issue, h.issued v hv]

theorem respond (h : s.Agrees P Q N t) {o : FsOp ν β} (ho : o.Inside P Q) (u : String) :
    (t.respond u o).1 = (s.respond u o).1 ∧ (s.respond u o).2.Agrees P Q N (t.respond u o).2 := by
  have flip : ∀ {b : Bool}, ¬ b = true → b = false := fun h => by simpa using h
  cases o with
  | existsDir d => exact ⟨h.dir d ho, h⟩
  | existsFile d n =>
    have := congrArg Option.isSome (h.reads d n ho)
    simp only [Disk.reads, Option.isSome_map] at this
    exact ⟨this, h⟩
  | read d n =>
    simp only [Disk.respond]
    cases hl : s.lookup d n with
    | none => exact ⟨by rw [(h.lookup_none ho).mpr hl], h⟩
    | some f =>
      obtain ⟨g, hg, hc⟩ := h.lookup_some ho hl
      exact ⟨by rw [hg]; exact congrArg _ hc, h⟩
  | createDir d =>
    obtain ⟨hd, hp⟩ := ho
    simp only [Disk.respond, h.dir d (.inl hd), h.dir d.tail hp]
    split
    · exact ⟨rfl, h⟩
    · rename_i hn
      split
      · exact ⟨rfl, h.mkdir (flip hn) (by rw [h.dir d (.inl hd)]; exact flip hn)⟩
      · exact ⟨rfl, h⟩
  | create d n c =>
    simp only [Disk.respond, h.dir d (.inl ho)]
    split
    · cases hl : s.lookup d n with
      | none =>
        rw [(h.lookup_none ho).mpr hl]
        exact ⟨rfl, h.put ho rfl⟩
      | some f =>
        obtain ⟨g, hg, -⟩ := h.lookup_some ho hl
        rw [hg]
        exact ⟨rfl, h⟩
    · exact ⟨rfl, h⟩
  | syncFile d n =>
    simp only [Disk.respond]
    cases hl : s.lookup d n with
    | none =>
      rw [(h.lookup_none ho).mpr hl]
      exact ⟨rfl, h⟩
    | some f =>
      obtain ⟨g, hg, hc⟩ := h.lookup_some ho hl
      rw [hg]
      exact ⟨rfl, h.put ho (congrArg some hc)⟩
  | syncDir d =>
    simp only [Disk.respond, h.dir d ho]
    split
    · exact ⟨rfl, h.flush d⟩
    · exact ⟨rfl, h⟩
  | rename d a b =>
    simp only [Disk.respond]
    cases hl : s.lookup d a with
    | none =>
      rw [(h.lookup_none ho).mpr hl]
      exact ⟨rfl, h⟩
    | some f =>
      obtain ⟨g, hg, hc⟩ := h.lookup_some ho hl
      rw [hg]
      exact ⟨rfl, (h.put ho rfl).put ho (congrArg some hc)⟩
  | hardLink d a b =>
    simp only [Disk.respond]
    cases hl : s.lookup d a with
    | none =>
      rw [(h.lookup_none ho).mpr hl]
      exact ⟨rfl, h⟩
    | some f =>
      obtain ⟨g, hg, hc⟩ := h.lookup_some ho hl
      rw [hg]
      cases hb : s.lookup d b with
      | none =>
        rw [(h.lookup_none ho).mpr hb]
        exact ⟨rfl, h.put ho (congrArg some hc)⟩
      | some f' =>
        obtain ⟨g', hg', -⟩ := h.lookup_some ho hb
        rw [hg']
        exact ⟨rfl, h⟩
  | removeFile d n =>
    simp only [Disk.respond]
    cases hl : s.lookup d n with
    | none =>
      rw [(h.lookup_none ho).mpr hl]
      exact ⟨rfl, h⟩
    | some f =>
      obtain ⟨g, hg, -⟩ := h.lookup_some ho hl
      rw [hg]
      exact ⟨rfl, h.put ho rfl⟩
  | access d => exact ⟨by simp only [Disk.respond, h.dir d ho], h⟩
  | tryLock d n =>
    simp only [Disk.respond, h.locked d n ho]
    split
    · exact ⟨rfl, h⟩
    · exact ⟨rfl, h.setLock d n true⟩
  | unlock d n => exact ⟨rfl, h.setLock d n false⟩
  | uuid => exact ⟨rfl, h.issue u⟩
  | removeDirAll d => exact ho.elim
  | transfer src dst n => exact ho.elim

end Disk.Agrees

/-- Everything outside of `P` is as it was, and only names of `N` are new. -/
abbrev Disk.Outside (P : Dir → Prop) (N : String → Prop) (s s' : Disk ν β) : Prop :=
  s.Agrees (fun d => ¬ P d) (fun _ => False) (fun u => ¬ N u) s'

variable [DecidableEq ν]

theorem FsOp.Inside.outside {o : FsOp ν β} (ho : o.Inside P Q) {u : String} (hu : o = .uuid → N u) :
    s.Outside P N (s.respond u o).2 := by
  have same : s.Outside P N s := .refl s
  have put : ∀ {s : Disk ν β} {d n f}, P d → s.Outside P N (s.put d n f) := by
    refine fun {s d n f} hd =>
      ⟨fun _ _ => rfl, fun d' n' hd' => ?_, fun _ _ _ => rfl, fun _ _ => rfl⟩
    have : ¬ (d' = d ∧ n' = n) := fun h => hd' (h.1 ▸ hd)
    unfold Disk.reads
    rw [Disk.lookup_put, if_neg this]
  have lock : ∀ {d n b}, P d → s.Outside P N (s.setLock d n b) := by
    refine fun {d n b} hd => ⟨fun _ _ => rfl, fun _ _ _ => rfl, fun d' n' hd' => ?_, fun _ _ => rfl⟩
    have : ¬ (d' = d ∧ n' = n) := fun h => hd' (h.1 ▸ hd)
    simp only [Disk.setLock, if_neg this]
  cases o with
  | createDir d =>
    simp only [Disk.respond]
    split
    · exact same
    · rename_i hn
      split
      · refine ⟨fun d' hd' => ?_, fun d' n hd' => ?_, fun _ _ _ => rfl, fun _ _ => rfl⟩
        · have : d' ≠ d := fun h => hd'.elim (fun hd' => hd' (h ▸ ho.1)) id
          simp only [Disk.mkdir, if_neg this]
        · unfold Disk.reads
          rw [Disk.lookup_mkdir _ _ _ _ (by simpa using hn)]
      · exact same
  | create d n c =>
    simp only [Disk.respond]
    split
    · split
      · exact put ho
      · exact same
    · exact same
  | syncFile d n =>
    simp only [Disk.respond]
    split
    · exact same
    · exact put ho
  | syncDir d =>
    simp only [Disk.respond]
    split
    · exact ⟨fun _ _ => rfl, fun _ _ _ => rfl, fun _ _ _ => rfl, fun _ _ => rfl⟩
    · exact same
  | rename d a b =>
    simp only [Disk.respond]
    split
    · exact same
    · exact (put ho).trans (put ho)
  | hardLink d a b =>
    simp only [Disk.respond]
    split
    · exact same
    · exact same
    · exact put ho
  | removeFile d n =>
    simp only [Disk.respond]
    split
    · exact same
    · exact put ho
  | tryLock d n =>
    simp only [Disk.respond]
    split
    · exact same
    · exact lock ho
  | unlock d n => exact lock ho
  | uuid =>
    refine ⟨fun _ _ => rfl, fun _ _ _ => rfl, fun _ _ _ => rfl, fun v hv => ?_⟩
    have : v ≠ u := fun h => hv (h ▸ hu rfl)
    simp only [Disk.respond, Disk.issue, if_neg this]
  | removeDirAll d => exact ho.elim
  | transfer src dst n => exact ho.elim
  | _ => exact same

end

/-! ## Programs -/

/-- The names that are handed out are among `N`, and which one comes next is settled by those
that have been handed out. -/
structure Policy.Draws (π : Policy ν β) (N : String → Prop) : Prop where
  mem : ∀ {s u}, π.uuid s u → N u
  next : ∀ {s t u v}, (∀ w, N w → t.issued w = s.issued w) → π.uuid s u → π.uuid t v → v = u

/-- The same operations on the directories of `P`, with names of `N`. -/
inductive FsOp.Shared (P Q : Dir → Prop) (N : String → Prop) : Coupling (fsSig ν β) where
  | same {o : FsOp ν β} : o.Inside P Q → o ≠ .uuid → Shared P Q N o o Eq
  | uuid : Shared P Q N .uuid .uuid fun u v => u = v ∧ N u

namespace Prog

variable {P Q : Dir → Prop} {N : String → Prop} {R : α → γ → Prop}

/-- A program that keeps to its directories is a twin of itself. -/
theorem Within.shared {p : Prog (fsSig ν β) α} (hp : p.Within (FsOp.Inside P Q)) :
    p.Twin (FsOp.Shared P Q N) Eq p := by
  induction p with
  | ret a => exact .ret rfl
  | op o k ih =>
    by_cases ho : o = .uuid
    · subst ho
      refine .op .uuid ?_
      rintro u _ ⟨rfl, -⟩
      exact ih u (hp.2 u)
    · refine .op (.same hp.1 ho) ?_
      rintro x _ rfl
      exact ih x (hp.2 x)

theorem Twin.swap {p : Prog (fsSig ν β) α} {q : Prog (fsSig ν β) γ}
    (h : p.Twin (FsOp.Shared P Q N) R q) : q.Twin (FsOp.Shared P Q N) (fun b a => R a b) p := by
  induction h with
  | ret hR => exact .ret hR
  | op hC _ ih =>
    cases hC with
    | same ho hn => exact .op (.same ho hn) fun x y hx => ih y x hx.symm
    | uuid =>
      refine .op .uuid ?_
      rintro u _ ⟨rfl, hu⟩
      exact ih u u ⟨rfl, hu⟩

variable [DecidableEq ν] {π : Policy ν β} {s s' t t' : Disk ν β} {p : Prog (fsSig ν β) α}
  {q : Prog (fsSig ν β) γ} {a : α} {b : γ}

/-- Without faults, programs that do the same on disks that look the same there are answered
the same. -/
theorem Twin.agrees (h : p.Twin (FsOp.Shared P Q N) R q) (hf : π.faults = false)
    (hπ : π.Draws N) (hd : s.Agrees P Q N t) (hr : Runs (fsMachine π) p s a s')
    (hr' : Runs (fsMachine π) q t b t') : R a b ∧ s'.Agrees P Q N t' := by
  induction h generalizing s t with
  | ret hR =>
    obtain ⟨rfl, rfl⟩ := Runs.ret_iff.mp hr
    obtain ⟨rfl, rfl⟩ := Runs.ret_iff.mp hr'
    exact ⟨hR, hd⟩
  | @op o _ _ _ _ hC _ ih =>
    obtain ⟨x, s₁, hs, hr⟩ := Runs.op_iff.mp hr
    obtain ⟨y, t₁, ht, hr'⟩ := Runs.op_iff.mp hr'
    cases hC with
    | same ho hn =>
      have responds : ∀ {s s' : Disk ν β} {x : o.Ans}, FsStep π s o x s' →
          x = (s.respond "" o).1 ∧ s' = (s.respond "" o).2 := by
        intro s s' x hs
        obtain ⟨u, -, rfl, rfl⟩ := hs.responds_of_faultless
          (fun _ _ _ he => by subst he; exact ho) hf (.inr rfl)
        cases o <;> first | exact ⟨rfl, rfl⟩ | exact (hn rfl).elim
      obtain ⟨rfl, rfl⟩ := responds hs
      obtain ⟨rfl, rfl⟩ := responds ht
      obtain ⟨hx, hd'⟩ := hd.respond ho ""
      exact ih _ _ hx.symm hd' hr hr'
    | uuid =>
      obtain ⟨hu, rfl⟩ := hs.uuid
      obtain ⟨hv, rfl⟩ := ht.uuid
      obtain rfl := hπ.next hd.issued hu hv
      exact ih _ _ ⟨rfl, hπ.mem hu⟩ (hd.issue _) hr hr'

/-- The directories a program does not touch are as they were. -/
theorem Twin.outside (h : p.Twin (FsOp.Shared P Q N) R q) (hf : π.faults = false)
    (hπ : π.Draws N) (hr : Runs (fsMachine π) p s a s') : s.Outside P N s' := by
  induction h generalizing s with
  | ret hR =>
    obtain ⟨rfl, rfl⟩ := Runs.ret_iff.mp hr
    exact .refl _
  | op hC _ ih =>
    obtain ⟨x, s₁, hs, hr⟩ := Runs.op_iff.mp hr
    cases hC with
    | @same o ho hn =>
      obtain ⟨u, -, rfl, rfl⟩ := hs.responds_of_faultless
        (fun _ _ _ he => by subst he; exact ho) hf (.inr rfl)
      exact (ho.outside fun he => (hn he).elim).trans (ih _ _ rfl hr)
    | uuid =>
      obtain ⟨hu, rfl⟩ := hs.uuid
      have ho : (FsOp.uuid : FsOp ν β).Inside P Q := trivial
      exact (ho.outside fun _ => hπ.mem hu).trans (ih _ _ ⟨rfl, hπ.mem hu⟩ hr)

end Prog

end HsmRs
