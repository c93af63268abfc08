import HsmRs.Lib.Frame

/-! # Crashes

The death of the process releases every lock and keeps the disk. A power loss
keeps for every entry the visible or the safe version, and content only as far
as it was synced.
-/

namespace HsmRs

variable {ν β ε α : Type}

/-- What a power failure makes of a file version. -/
def Survives : Option (File β) → Option (File β) → Prop
  | none, none => True
  | some f, some g => g.synced = true ∧ (f.synced = true → g.content = f.content)
  | _, _ => False

theorem Survives.synced {c : β} {a : Option (File β)} (h : Survives (some ⟨c, true⟩) a) :
    a = some ⟨c, true⟩ := by
  cases a with
  | none => exact h.elim
  | some g =>
    obtain ⟨c', b⟩ := g
    obtain ⟨hb, hc⟩ := h
    simp_all

theorem Survives.none_left {a : Option (File β)} (h : Survives none a) : a = none := by
  cases a with
  | none => rfl
  | some g => exact h.elim

namespace Disk

/-- The process is gone, with the locks it held. -/
def reboot (s : Disk ν β) : Disk ν β := { s with locked := fun _ _ => false }

@[simp] theorem lookup_reboot (s : Disk ν β) (d : Dir) (n : ν) :
    s.reboot.lookup d n = s.lookup d n := rfl

theorem frame_reboot {K : Dir → ν → Prop} (s : Disk ν β) : Frame K s s.reboot :=
  ⟨fun _ _ _ => .refl _, fun _ _ _ => .inl rfl, fun _ _ _ h => h, fun _ _ _ _ h => h, fun _ h => h⟩

structure PowerLoss (s s' : Disk ν β) : Prop where
  dir_of : ∀ d, s'.dir d = true → s.dir d = true ∨ s.safeDir d = true
  parent : ∀ x p, s'.dir (x :: p) = true → s'.dir p = true
  kept : ∀ d, s.dir d = true → s.safeDir d = true →
    (∀ x p, d = x :: p → s'.dir p = true) → s'.dir d = true
  file : ∀ d n, s'.dir d = true →
    Survives (s.lookup d n) (s'.file d n) ∨ Survives (s.safeFile d n) (s'.file d n)
  safeDir : s'.safeDir = s'.dir
  safeFile : ∀ d n, s'.safeFile d n = s'.lookup d n
  locked : ∀ d n, s'.locked d n = false
  issued : s'.issued = s.issued

namespace PowerLoss

variable {s s' : Disk ν β}

/-- A directory survives when the entries down to it are safe. -/
theorem dir_safe (h : PowerLoss s s') : ∀ d : Dir,
    (∀ p, p <:+ d → s.dir p = true ∧ s.safeDir p = true) → s'.dir d = true
  | [], hd => h.kept [] (hd [] (List.suffix_refl _)).1 (hd [] (List.suffix_refl _)).2
      (fun _ _ he => by simp at he)
  | x :: p, hd => by
      refine h.kept _ (hd _ (List.suffix_refl _)).1 (hd _ (List.suffix_refl _)).2 ?_
      rintro y q ⟨rfl, rfl⟩
      exact h.dir_safe p fun q hq => hd q (hq.trans (List.suffix_cons x p))

theorem lookup (h : PowerLoss s s') {d : Dir} (hd : s'.dir d = true) (n : ν) :
    Survives (s.lookup d n) (s'.lookup d n) ∨ Survives (s.safeFile d n) (s'.lookup d n) := by
  have : s'.lookup d n = s'.file d n := by simp [Disk.lookup, hd]
  rw [this]
  exact h.file d n hd

/-- A file whose two versions agree and are synced survives with its directory. -/
theorem lookup_safe (h : PowerLoss s s') {d : Dir} {n : ν} {c : β} (hd : s'.dir d = true)
    (hn : s.lookup d n = some ⟨c, true⟩) (hs : s.safeFile d n = some ⟨c, true⟩) :
    s'.lookup d n = some ⟨c, true⟩ := by
  rcases h.lookup hd n with hv | hv
  · rw [hn] at hv
    exact hv.synced
  · rw [hs] at hv
    exact hv.synced

end PowerLoss

def lose (s : Disk ν β) : Disk ν β where
  dir d := d.tails.all s.safeDir
  file d n := (s.safeFile d n).map fun f => { f with synced := true }
  safeDir d := d.tails.all s.safeDir
  safeFile d n := if d.tails.all s.safeDir then
    (s.safeFile d n).map fun f => { f with synced := true } else none
  locked _ _ := false
  issued := s.issued

theorem powerLoss_lose (s : Disk ν β) : PowerLoss s s.lose where
  dir_of d h := by
    simp only [lose, List.all_eq_true, List.mem_tails] at h
    exact .inr (h d (List.suffix_refl _))
  parent x p h := by
    simp only [lose, List.all_eq_true, List.mem_tails] at h ⊢
    exact fun q hq => h q (hq.trans (List.suffix_cons x p))
  kept d _ hs hp := by
    simp only [lose, List.all_eq_true, List.mem_tails] at hp ⊢
    intro q hq
    cases d with
    | nil =>
      rw [List.suffix_nil.mp hq]
      exact hs
    | cons x p =>
      rcases List.suffix_cons_iff.mp hq with rfl | hq
      · exact hs
      · exact hp x p rfl q hq
  file d n _ := by
    right
    cases h : s.safeFile d n <;> simp [lose, h, Survives]
  safeDir := rfl
  safeFile _ _ := rfl
  locked _ _ := rfl
  issued := rfl

end Disk

/-! ## Both versions

A crash leaves one of the two versions of a file, so what is to hold after every crash
has to hold of both.
-/

namespace Disk

variable {s s' : Disk ν β} {d : Dir} {n : ν} {f : File β}

def Has (s : Disk ν β) (d : Dir) (n : ν) (f : File β) : Prop :=
  s.lookup d n = some f ∨ s.safeFile d n = some f

/-- Both versions of the file exist. -/
def Lasts (s : Disk ν β) (d : Dir) (n : ν) : Prop := s.lookup d n ≠ none ∧ s.safeFile d n ≠ none

/-- The directory is there and its entry is safe. -/
def Grounded (s : Disk ν β) (d : Dir) : Prop := s.dir d = true ∧ s.safeDir d = true

theorem dir_of_lookup (h : s.lookup d n ≠ none) : s.dir d = true := by
  by_contra hd
  exact h (by simp [lookup, hd])

namespace Has

variable {K : Dir → ν → Prop}

theorem of_frame (h : s'.Has d n f) (hf : Frame K s s') (hk : K d n)
    (synced : ∀ g, s.Has d n g → g.synced = true) : s.Has d n f := by
  have catches : ∀ {a}, Upgrade (s.lookup d n) a → a = some f → s.lookup d n = some f := by
    rintro a hu rfl
    obtain ⟨⟨c, x⟩, hg, -, -⟩ := hu.some_right
    have hx : x = true := synced _ (.inl hg)
    subst hx
    rw [hg] at hu ⊢
    exact hu.synced.symm
  rcases h with hl | hs
  · exact .inl (catches (hf.now d n hk) hl)
  · rcases hf.safe d n hk with he | hu
    · exact .inr (he.symm.trans hs)
    · exact .inl (catches hu hs)

theorem of_powerLoss (h : s'.Has d n f) (hp : s.PowerLoss s')
    (synced : ∀ g, s.Has d n g → g.synced = true) : s'.dir d = true ∧ s.Has d n f := by
  have hl : s'.lookup d n = some f := h.elim id fun hs => (hp.safeFile d n).symm.trans hs
  have hd : s'.dir d = true := dir_of_lookup (n := n) (by simp [hl])
  have survives : ∀ {a}, Survives a (s'.lookup d n) → (∀ g, a = some g → s.Has d n g) →
      s.Has d n f := by
    intro a ha hg
    rw [hl] at ha
    cases a with
    | none => exact ha.elim
    | some g =>
      obtain ⟨c, x⟩ := g
      have hx : x = true := synced _ (hg _ rfl)
      subst hx
      exact hg f ha.synced.symm
  rcases hp.lookup hd n with hv | hv
  · exact ⟨hd, survives hv fun g hg => .inl hg⟩
  · exact ⟨hd, survives hv fun g hg => .inr hg⟩

end Has

theorem Lasts.frame {K : Dir → ν → Prop} (h : s.Lasts d n) (hf : Frame K s s') (hk : K d n) :
    s'.Lasts d n := by
  refine ⟨fun hn => ?_, fun hn => ?_⟩
  · have := hf.now d n hk
    rw [hn] at this
    exact h.1 this.none_right
  · rcases hf.safe d n hk with he | hu
    · exact h.2 (he.symm.trans hn)
    · rw [hn] at hu
      exact h.1 hu.none_right

theorem Lasts.powerLoss (h : s.Lasts d n) (hp : s.PowerLoss s') (hd : s'.dir d = true) :
    s'.Lasts d n := by
  have visible : s'.lookup d n ≠ none := by
    intro hn
    rcases hp.lookup hd n with hv | hv <;> rw [hn] at hv
    · cases hl : s.lookup d n with
      | none => exact h.1 hl
      | some f => rw [hl] at hv; exact hv
    · cases hl : s.safeFile d n with
      | none => exact h.2 hl
      | some f => rw [hl] at hv; exact hv
  exact ⟨visible, by rw [hp.safeFile]; exact visible⟩

theorem Grounded.frame {K : Dir → ν → Prop} (h : s.Grounded d) (hf : Frame K s s') (hk : K d n) :
    s'.Grounded d := ⟨hf.dir d n hk h.1, hf.safeDir d n hk h.1 h.2⟩

/-- A grounded directory is lost only with its parent. -/
theorem Grounded.powerLoss (h : s.Grounded d) (hp : s.PowerLoss s')
    (parent : ∀ x p, d = x :: p → s'.dir p = true) : s'.Grounded d := by
  have hd := hp.kept d h.1 h.2 parent
  exact ⟨hd, by rw [hp.safeDir]; exact hd⟩

end Disk

/-! ## Trees

The parent of a directory is a directory, whatever the operations and crashes.
-/

namespace Disk

/-- Every directory lies in a directory. -/
def Tree (s : Disk ν β) : Prop := ∀ x p, s.dir (x :: p) = true → s.dir p = true

variable {s s' : Disk ν β}

theorem Tree.suffix (h : s.Tree) {p : Dir} : ∀ {d : Dir}, s.dir d = true → p <:+ d → s.dir p = true
  | [], hd, hp => by rwa [List.suffix_nil.mp hp]
  | x :: q, hd, hp => by
      rcases List.suffix_cons_iff.mp hp with rfl | hq
      · exact hd
      · exact h.suffix (h x q hd) hq

theorem PowerLoss.tree (h : s.PowerLoss s') : s'.Tree := h.parent

theorem Tree.of_dir (h : s.Tree) (hd : s'.dir = s.dir) : s'.Tree := fun x p => by
  rw [hd]
  exact h x p

variable [DecidableEq ν]

theorem Tree.respond (h : s.Tree) (u : String) (o : FsOp ν β) : (s.respond u o).2.Tree := by
  cases o with
  | createDir d =>
    simp only [Disk.respond]
    split
    · exact h
    · split
      · rename_i hp
        intro x p hx
        simp only [mkdir] at hx ⊢
        split at hx
        · rename_i he
          subst he
          have : ¬ p = x :: p := fun he => by simpa using congrArg List.length he
          rw [if_neg this]
          exact hp
        · split
          · rfl
          · exact h x p hx
      · exact h
  | removeDirAll d =>
    simp only [Disk.respond]
    split
    · exact fun x p hx => (pruned_prune s d).parent x p hx (h x p ((pruned_prune s d).inside _ hx))
    · exact h
  | _ =>
    simp only [Disk.respond]
    first
    | exact h
    | (split <;> first | exact h | (split <;> exact h))

theorem Tear.tree {o : FsOp ν β} (ht : s.Tear o s') (h : s.Tree) : s'.Tree := by
  cases ht with
  | before => exact h
  | after _ u => exact h.respond u _
  | create => exact h
  | syncDir hf => exact h.of_dir hf.dir
  | removeDirAll hp => exact fun x p hx => hp.parent x p hx (h x p (hp.inside _ hx))
  | transfer => exact h

end Disk

section Tree

variable [DecidableEq ν] {π : Env ν β} {s s' : Disk ν β} {p : Prog (fsSig ν β) α}

theorem FsStep.tree {o : FsOp ν β} {x : o.Ans} (hs : FsStep π s o x s') (h : s.Tree) : s'.Tree := by
  cases hs with
  | respond _ u => exact h.respond u o
  | fault _ _ _ ht => exact ht.tree h
  | inexact => exact h
  | unseen => exact h

theorem Runs.tree {a : α} (hr : Runs π.machine p s a s') (h : s.Tree) : s'.Tree := by
  induction hr with
  | ret => exact h
  | op hs _ ih => exact ih (FsStep.tree hs h)

theorem Cuts.tree (hc : Cuts π.machine p s s') (h : s.Tree) : s'.Tree := by
  induction hc with
  | here => exact h
  | torn ht => exact Disk.Tear.tree ht h
  | later hs _ ih => exact ih (FsStep.tree hs h)

/-- A postcondition may assume that the disk is still a tree. -/
theorem Prog.wp_tree {C : Disk ν β → Prop} {Q : α → Disk ν β → Prop} (ht : s.Tree)
    (h : p.wp π.machine C (fun a s' => s'.Tree → Q a s') s) : p.wp π.machine C Q s :=
  wp_of_runs (fun _ _ hr => wp_sound_runs h hr (hr.tree ht)) fun _ hc => wp_sound_cuts h hc

end Tree

end HsmRs
