import Mathlib.Data.Fintype.EquivFin
import Mathlib.Data.List.Find
import HsmRs.Lib.Locality
import HsmRs.Local.Placing
import HsmRs.Local.Reference

/-! # Trials

Executions without faults on names from a list, which stop when an operation uses a name
that is still to be handed out. What is tried is a run of the machine that hands out just
these names, in this order.
-/

namespace HsmRs

def FileName.bears {κ : Type} : FileName κ → String → Bool
  | tmp v, u | receiptTmp v, u => v == u
  | _, _ => false

def FsOp.gives {ν β : Type} (bears : ν → String → Bool) : FsOp ν β → String → Bool
  | createDir d, u => d.head? == some u
  | create _ n _, u | rename _ _ n, u | hardLink _ _ n, u | transfer _ _ n, u => bears n u
  | _, _ => false

section

variable {κ α : Type} [DecidableEq κ] {s s' : Disk (FileName κ) (Content κ)} {u v : String}

omit [DecidableEq κ] in
structure Disk.Unused (s : Disk (FileName κ) (Content κ)) (u : String) : Prop where
  issued : s.issued u = false
  dir : ∀ d, s.dir (u :: d) = false
  file : ∀ d n, FileName.bears n u = true → s.lookup d n = none

namespace Disk.Unused

omit [DecidableEq κ] in
theorem issue (h : s.Unused u) (hv : u ≠ v) : (s.issue v).Unused u :=
  ⟨by simpa [Disk.issue, hv] using h.issued, h.dir, h.file⟩

theorem put {d : Dir} {n : FileName κ} {f : Option (File (Content κ))} (h : s.Unused u)
    (hn : f = none ∨ n.bears u = false) : (s.put d n f).Unused u := by
  refine ⟨h.issued, h.dir, fun d' n' hb => ?_⟩
  rw [Disk.lookup_put]
  split
  · rename_i he
    rcases hn with rfl | hn
    · simp
    · rw [he.2, hn] at hb
      cases hb
  · exact h.file d' n' hb

theorem respond {o : FsOp (FileName κ) (Content κ)} (h : s.Unused u)
    (ho : o.gives FileName.bears u = false) (hv : o = .uuid → u ≠ v) :
    (s.respond v o).2.Unused u := by
  have lock : ∀ {d n b}, (s.setLock d n b).Unused u := ⟨h.issued, h.dir, h.file⟩
  cases o with
  | createDir d =>
    simp only [Disk.respond]
    split
    · exact h
    · rename_i hn
      split
      · refine ⟨h.issued, fun d' => ?_, fun d' n hb => ?_⟩
        · have : u :: d' ≠ d := by
            rintro rfl
            simp [FsOp.gives] at ho
          simp only [Disk.mkdir, if_neg this, h.dir]
        · rw [Disk.lookup_mkdir _ _ _ _ (by simpa using hn)]
          exact h.file d' n hb
      · exact h
  | create d n c =>
    simp only [Disk.respond]
    split
    · split
      · exact h.put (.inr ho)
      · exact h
    · exact h
  | syncFile d n =>
    simp only [Disk.respond]
    split
    · exact h
    · rename_i f hf
      cases hb : n.bears u with
      | false => exact h.put (.inr hb)
      | true => simp [h.file d n hb] at hf
  | syncDir d =>
    simp only [Disk.respond]
    split
    · exact ⟨h.issued, h.dir, h.file⟩
    · exact h
  | rename d a b =>
    simp only [Disk.respond]
    split
    · exact h
    · exact (h.put (.inl rfl)).put (.inr ho)
  | hardLink d a b =>
    simp only [Disk.respond]
    split
    · exact h
    · exact h
    · exact h.put (.inr ho)
  | removeFile d n =>
    simp only [Disk.respond]
    split
    · exact h
    · exact h.put (.inl rfl)
  | removeDirAll d =>
    simp only [Disk.respond]
    split
    · refine ⟨h.issued, fun d' => ?_, fun d' n hb => ?_⟩
      · simp [Disk.prune, h.dir]
      · have := h.file d' n hb
        unfold Disk.lookup at this ⊢
        simp only [Disk.prune]
        split
        · simp
        · exact this
    · exact h
  | tryLock d n =>
    simp only [Disk.respond]
    split
    · exact h
    · exact lock
  | unlock d n => exact lock
  | uuid => exact h.issue (hv rfl)
  | transfer src dst n =>
    simp only [Disk.respond]
    split
    · exact h
    · split
      · exact h.put (.inr ho)
      · exact h
  | _ => exact h

end Disk.Unused

omit [DecidableEq κ] in
/-- However many names are set aside, others are left. -/
def Disk.Roomy (s : Disk (FileName κ) (Content κ)) : Prop :=
  ∀ used : List String, ∃ u, u ∉ used ∧ s.Unused u

omit [DecidableEq κ] in
theorem FsOp.exists_gives (o : FsOp (FileName κ) (Content κ)) :
    ∃ used : List String, ∀ u, u ∉ used → o.gives FileName.bears u = false := by
  have named : ∀ n : FileName κ, ∃ used : List String, ∀ u, u ∉ used → n.bears u = false := by
    intro n
    have other : ∀ {u v : String}, u ∉ [v] → decide (v = u) = false := fun {u v} hu =>
      decide_eq_false fun h => hu (List.mem_singleton.mpr h.symm)
    cases n with
    | tmp v => exact ⟨[v], fun u hu => other hu⟩
    | receiptTmp v => exact ⟨[v], fun u hu => other hu⟩
    | _ => exact ⟨[], fun _ _ => rfl⟩
  cases o with
  | createDir d =>
    refine ⟨d.head?.toList, fun u hu => ?_⟩
    simpa [FsOp.gives] using hu
  | create d n c => exact named n
  | rename d a b => exact named b
  | hardLink d a b => exact named b
  | transfer a b n => exact named n
  | _ => exact ⟨[], fun _ _ => rfl⟩

theorem Disk.Roomy.respond (h : s.Roomy) (v : String) (o : FsOp (FileName κ) (Content κ)) :
    (s.respond v o).2.Roomy := by
  obtain ⟨given, hg⟩ := o.exists_gives
  intro used
  obtain ⟨u, hu, hs⟩ := h (v :: (given ++ used))
  simp only [List.mem_cons, List.mem_append, not_or] at hu
  exact ⟨u, hu.2.2, hs.respond (hg u hu.2.1) fun _ => hu.1⟩

theorem Disk.Roomy.tear {o : FsOp (FileName κ) (Content κ)} (h : s.Roomy) (ht : s.Tear o s') :
    s'.Roomy := by
  cases ht with
  | before => exact h
  | after _ v => exact h.respond v o
  | @create d n =>
    obtain ⟨given, hg⟩ := FsOp.exists_gives (FsOp.transfer d d n : FsOp _ (Content κ))
    intro used
    obtain ⟨u, hu, hs⟩ := h (given ++ used)
    rw [List.mem_append, not_or] at hu
    exact ⟨u, hu.2, hs.put (.inr (hg u hu.1))⟩
  | syncDir hf =>
    intro used
    obtain ⟨u, hu, hs⟩ := h used
    refine ⟨u, hu, by rw [hf.issued]; exact hs.issued, fun d => by rw [hf.dir]; exact hs.dir d,
      fun d n hb => ?_⟩
    rw [Disk.lookup, hf.dir, hf.file]
    exact hs.file d n hb
  | removeDirAll hp =>
    intro used
    obtain ⟨u, hu, hs⟩ := h used
    refine ⟨u, hu, by rw [hp.issued]; exact hs.issued, fun d => ?_, fun d n hb => ?_⟩
    · by_contra hd
      have := hs.dir d
      rw [hp.inside _ (by simpa using hd)] at this
      cases this
    · rw [Disk.lookup]
      split
      · rename_i hd
        have := hs.file d n hb
        rw [Disk.lookup, if_pos (hp.inside d hd)] at this
        rcases hp.file d n with hf | hf
        · exact hf.trans this
        · exact hf
      · rfl
  | @transfer src dst n =>
    obtain ⟨given, hg⟩ := FsOp.exists_gives (FsOp.transfer src dst n : FsOp _ (Content κ))
    intro used
    obtain ⟨u, hu, hs⟩ := h (given ++ used)
    rw [List.mem_append, not_or] at hu
    exact ⟨u, hu.2, hs.put (.inr (hg u hu.1))⟩

/-- A run uses up few names. -/
theorem Disk.Roomy.runs {π : Policy (FileName κ) (Content κ)} {p : Prog (LocalSig κ) α} {a : α}
    (h : Runs (fsMachine π) p s a s') (hs : s.Roomy) : s'.Roomy := by
  induction h with
  | ret => exact hs
  | op step _ ih => exact ih (hs.tear step.tear)

theorem Disk.Roomy.cuts {π : Policy (FileName κ) (Content κ)} {p : Prog (LocalSig κ) α}
    (h : Cuts (fsMachine π) p s s') (hs : s.Roomy) : s'.Roomy := by
  induction h with
  | here => exact hs
  | torn ht => exact hs.tear ht
  | later step _ ih => exact ih (hs.tear step.tear)

omit [DecidableEq κ] in
theorem Disk.Roomy.reboot (hs : s.Roomy) : s.reboot.Roomy := fun used =>
  (hs used).imp fun _ ⟨hu, hs⟩ => ⟨hu, hs.issued, hs.dir, hs.file⟩

/-- While names are left, one of them can be handed out. -/
def Policy.Supplies (π : Policy (FileName κ) (Content κ)) : Prop := ∀ s, s.Roomy → ∃ u, π.uuid s u

/-- Every unused name can be handed out. -/
def Policy.Offers (π : Policy (FileName κ) (Content κ)) : Prop := ∀ s u, s.Unused u → π.uuid s u

omit [DecidableEq κ] in
theorem Policy.Generous.offers {π : Policy (FileName κ) (Content κ)} (h : π.Generous) : π.Offers :=
  fun s u hu => h s u hu.issued

omit [DecidableEq κ] in
theorem Policy.Offers.supplies {π : Policy (FileName κ) (Content κ)} (h : π.Offers) : π.Supplies :=
  fun s hs => (hs []).imp fun u hu => h s u hu.2

/-- Where it offers what is unused, every run without faults on unused names is one of its own. -/
theorem Policy.Offers.runs {π ρ : Policy (FileName κ) (Content κ)} (hπ : π.Offers)
    (unused : ∀ s u, ρ.uuid s u → s.Unused u) (faultless : ρ.faults = false)
    (exact' : ρ.exact = true) {p : Prog (LocalSig κ) α} {a : α}
    (h : Runs (fsMachine ρ) p s a s') : Runs (fsMachine π) p s a s' := by
  refine h.of_steps fun s o x s' hs => ?_
  cases hs with
  | respond _ u hu => exact .respond o u fun he => hπ s u (unused s u (hu he))
  | fault hf => simp [faultless] at hf
  | inexact hi => simp [exact'] at hi
  | unseen look => cases look

/-- While there are names left every program has a run. -/
theorem Prog.supplied_runs {π : Policy (FileName κ) (Content κ)} (hπ : π.Supplies)
    (p : Prog (LocalSig κ) α) (h : s.Roomy) : ∃ a s', Runs (fsMachine π) p s a s' := by
  induction p generalizing s with
  | ret a => exact ⟨a, s, .ret a s⟩
  | op o k ih =>
    obtain ⟨u, hu⟩ := hπ s h
    obtain ⟨a, s', hr⟩ := ih _ (h.respond u o)
    exact ⟨a, s', .op (.respond o u fun _ => hu) hr⟩

def regular : Policy (FileName κ) (Content κ) where
  uuid s u := s.Unused u
  faults := false
  exact := true

omit [DecidableEq κ] in
theorem regular_offers : (regular : Policy (FileName κ) (Content κ)).Offers := fun _ _ h => h

omit [DecidableEq κ] in
theorem regular_fresh : (regular : Policy (FileName κ) (Content κ)).Fresh := fun _ _ h => h.issued

omit [DecidableEq κ] in
theorem regular_smooth : (regular : Policy (FileName κ) (Content κ)).Smooth where
  faultless := rfl
  dir _ _ d h := h.dir d
  tmp _ _ d h := h.file d _ (by simp [FileName.bears])
  receiptTmp _ _ d h := h.file d _ (by simp [FileName.bears])

/-- Hands out the listed names one after the other, as long as they are unused. -/
def drawing (names : List String) : Policy (FileName κ) (Content κ) where
  uuid s u := names.find? (fun v => !s.issued v) = some u ∧ s.Unused u
  faults := false
  exact := true

omit [DecidableEq κ] in
theorem drawing_smooth {names : List String} :
    (drawing names : Policy (FileName κ) (Content κ)).Smooth where
  faultless := rfl
  dir _ _ d h := h.2.dir d
  tmp _ _ d h := h.2.file d _ (by simp [FileName.bears])
  receiptTmp _ _ d h := h.2.file d _ (by simp [FileName.bears])

omit [DecidableEq κ] in
theorem drawing_draws {names : List String} :
    (drawing names : Policy (FileName κ) (Content κ)).Draws (· ∈ names) where
  mem h := List.mem_of_find?_eq_some h.1
  next {s t u v} hi h h' := by
    have same : names.find? (fun v => !t.issued v) = names.find? fun v => !s.issued v :=
      List.find?_congr fun w hw => by rw [hi w hw]
    exact Option.some.inj (h'.1.symm.trans (same.trans h.1))

/-- One run without faults, with `names` to hand out and `keep` to leave unused. -/
def Prog.trial (keep : List String) : List String → Prog (LocalSig κ) α →
    Disk (FileName κ) (Content κ) → Option (α × Disk (FileName κ) (Content κ))
  | _, .ret a, s => some (a, s)
  | names, .op o k, s =>
      if (o.isUuid && names.isEmpty) || (names ++ keep).any (o.gives FileName.bears) then none
      else
        let r := s.respond (names.headD "") o
        trial keep (if o.isUuid then names.tail else names) (k r.1) r.2

namespace Prog

variable {keep names used : List String} {p : Prog (LocalSig κ) α} {a : α}

theorem trial_sound (nodup : (names ++ keep).Nodup) (unused : ∀ u ∈ names ++ keep, s.Unused u)
    (hused : ∀ u ∈ used, s.issued u = true) (h : p.trial keep names s = some (a, s')) :
    Runs (fsMachine (drawing (used ++ names))) p s a s' ∧ ∀ u ∈ keep, s'.Unused u := by
  induction p generalizing s names used with
  | ret b =>
    simp only [trial, Option.some.injEq, Prod.mk.injEq] at h
    obtain ⟨rfl, rfl⟩ := h
    exact ⟨.ret _ _, fun u hu => unused u (List.mem_append_right _ hu)⟩
  | op o k ih =>
    rw [trial] at h
    split at h
    · cases h
    · rename_i hc
      simp only [Bool.or_eq_true, not_or, Bool.not_eq_true, List.any_eq_false] at hc
      have gives : ∀ u ∈ names ++ keep, o.gives FileName.bears u = false := fun u hu => by
        simpa using hc.2 u hu
      by_cases ho : o = .uuid
      · subst ho
        cases names with
        | nil => simp [FsOp.isUuid] at hc
        | cons u rest =>
          simp only [FsOp.isUuid, if_true, List.tail_cons, List.headD_cons] at h
          rw [List.cons_append, List.nodup_cons] at nodup
          have left : ∀ v ∈ rest ++ keep, (s.respond u .uuid).2.Unused v := fun v hv =>
            (unused v (List.mem_cons_of_mem _ hv)).issue fun he => nodup.1 (he ▸ hv)
          have gone : ∀ v ∈ used ++ [u], (s.respond u .uuid).2.issued v = true := by
            intro v hv
            rcases List.mem_append.mp hv with hv | hv
            · simp [Disk.respond, Disk.issue, hused v hv]
            · simp [Disk.respond, Disk.issue, List.mem_singleton.mp hv]
          obtain ⟨hr, hk⟩ := ih _ nodup.2 left gone h
          have first :
            (drawing (used ++ u :: rest) : Policy (FileName κ) (Content κ)).uuid s u := by
            refine ⟨?_, unused u (by simp)⟩
            rw [List.find?_append, List.find?_eq_none.mpr fun v hv => by simp [hused v hv]]
            simp [(unused u (by simp)).issued]
          rw [List.append_assoc, List.singleton_append] at hr
          exact ⟨.op (.respond _ u fun _ => first) hr, hk⟩
      · have hu : o.isUuid = false := by cases o <;> first | rfl | exact (ho rfl).elim
        simp only [hu, Bool.false_eq_true, if_false] at h
        have issued : ∀ v, s.issued v = true →
          (s.respond (names.headD "") o).2.issued v = true := by
          intro v hv
          exact (FsStep.respond (π := (drawing names : Policy (FileName κ) (Content κ))) o _
            (fun he => (ho he).elim)).issued hv
        obtain ⟨hr, hk⟩ := ih _ nodup
          (fun v hv => (unused v hv).respond (gives v hv) fun he => (ho he).elim)
          (fun v hv => issued v (hused v hv)) h
        exact ⟨.op (.respond o _ fun he => (ho he).elim) hr, hk⟩

theorem trial_runs (nodup : (names ++ keep).Nodup) (unused : ∀ u ∈ names ++ keep, s.Unused u)
    (h : p.trial keep names s = some (a, s')) :
    Runs (fsMachine (drawing names)) p s a s' ∧ ∀ u ∈ keep, s'.Unused u :=
  @trial_sound _ _ _ _ _ _ _ [] _ _ nodup unused nofun h

/-- It is a run of every machine that can hand out any unused name. -/
theorem trial_offered {π : Policy (FileName κ) (Content κ)} (hπ : π.Offers)
    (nodup : (names ++ keep).Nodup) (unused : ∀ u ∈ names ++ keep, s.Unused u)
    (h : p.trial keep names s = some (a, s')) :
    Runs (fsMachine π) p s a s' ∧ ∀ u ∈ keep, s'.Unused u :=
  (trial_runs nodup unused h).imp_left
    (hπ.runs (fun s u (hu : (drawing names).uuid s u) => hu.2) rfl rfl)

end Prog

end

namespace Reference

theorem blank_unused {u : String} (hs : u ≠ "s") (ha : u ≠ "a") : blank.Unused u := by
  refine ⟨rfl, fun d => ?_, fun d n _ => ?_⟩
  · simp [blank, hs, ha]
  · simp [Disk.lookup, blank]

theorem blank_roomy : blank.Roomy := by
  intro used
  obtain ⟨u, hu⟩ := Infinite.exists_notMem_finset ("s" :: "a" :: used).toFinset
  simp only [List.mem_toFinset, List.mem_cons, not_or] at hu
  exact ⟨u, hu.2.2, blank_unused hu.1 hu.2.1⟩

end Reference

end HsmRs
