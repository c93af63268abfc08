import HsmRs.Lib.Answers
import HsmRs.Lib.Pool
import HsmRs.Local.Helpers

/-! # Sessions and seals

What the programs of the local adapters know of the layouts they work on: which transfer
locks they hold, where they have found no seal, which payloads they have read. A payload
is filled under the lock of its layout where no seal has been found, and a layout is
sealed under its lock, or by the one that has made it, once its payload has been read.
-/

namespace HsmRs

variable {κ : Type}

/-- The disk, and the directories whose removal has been begun. -/
structure Site (κ : Type) where
  disk : Disk (FileName κ) (Content κ)
  removed : List Dir

def Site.Removed (s : Site κ) (d : Dir) : Prop := ∃ r ∈ s.removed, r <:+ d

def FsOp.removes {ν β : Type} : FsOp ν β → List Dir
  | removeDirAll d => [d]
  | _ => []

/-- The machine of the file system with a record of what is removed. -/
def siteMachine [DecidableEq κ] (π : Policy (FileName κ) (Content κ)) :
    Machine (LocalSig κ) (Site κ) where
  step s o x s' := FsStep π s.disk o x s'.disk ∧ s'.removed = o.removes ++ s.removed
  tear s o s' := s.disk.Tear o s'.disk ∧ s'.removed = o.removes ++ s.removed

/-- Transfer locks held, layouts found without a seal, payloads read or written, and
directories made. -/
structure Memo where
  held : Dir → Prop
  clear : Dir → Prop
  seen : Dir → Bytes → Prop
  made : Dir → Prop

namespace Memo

def blank : Memo := ⟨fun _ => False, fun _ => False, fun _ _ => False, fun _ => False⟩

variable (g : Memo) (d : Dir)

/-- What was known of a layout before its lock was taken does not count any more. -/
def locking : Memo where
  held d' := d' = d ∨ g.held d'
  clear d' := d' ≠ d ∧ g.clear d'
  seen d' b := d' ≠ d ∧ g.seen d' b
  made := g.made

def unlocking : Memo := { g with held := fun d' => d' ≠ d ∧ g.held d' }

def finding : Memo := { g with clear := fun d' => d' = d ∨ g.clear d' }

def reading (b : Bytes) : Memo := { g with seen := fun d' b' => d' = d ∧ b' = b ∨ g.seen d' b' }

def making : Memo :=
  { g with seen := fun d' b => d' ≠ d ∧ g.seen d' b, made := fun d' => d' = d ∨ g.made d' }

def «sealing» : Memo := { g with clear := fun d' => d' ≠ d ∧ g.clear d' }

def note (g : Memo) : (o : FsOp (FileName κ) (Content κ)) → o.Ans → Memo
  | .tryLock d n, x => match n, x with
      | .transferLock, .ok _ => g.locking d
      | _, _ => g
  | .unlock d n, _ => match n with
      | .transferLock => g.unlocking d
      | _ => g
  | .existsFile d n, x => match n, x with
      | .sealed, false => g.finding d
      | _, _ => g
  | .read d n, x => match n, x with
      | .data, .ok (.bytes b) => g.reading d b
      | _, _ => g
  | .create d n c, x => match n, c, x with
      | .data, .bytes b, .ok _ => g.reading d b
      | _, _, _ => g
  | .createDir d, x => match x with
      | .ok _ => g.making d
      | .error _ => g
  | .rename d _ n, _ => match n with
      | .sealed => g.sealing d
      | _ => g
  | _, _ => g

end Memo

/-- What is known of a task: the layout it may fill, the payloads it verifies, and whether it
imports, which it does in a directory it makes itself. -/
structure Contract where
  fills : Dir → Prop
  verified : Dir → Bytes → Prop
  imports : Prop

namespace Contract

/-- The payload of the layout is in the hands of the program. -/
def Grip (c : Contract) (g : Memo) (d : Dir) : Prop := g.held d ∨ c.imports ∧ g.made d

def permits (c : Contract) (g : Memo) : FsOp (FileName κ) (Content κ) → Prop
  | .create _ n _ => n ≠ .sealed
  | .hardLink _ _ n => n ≠ .sealed
  | .rename d a n => a.IsTemp ∧ n ≠ .data ∧
      (n = .sealed → c.Grip g d ∧ ∃ b, g.seen d b ∧ c.verified d b)
  | .removeFile _ n => n ≠ .data ∧ n ≠ .sealed
  | .transfer _ d n => n = .data ∧ c.fills d ∧ g.held d ∧ g.clear d ∧ ∀ b, ¬ g.seen d b
  | .unlock d n => n = .transferLock → g.held d
  | _ => True

structure Relies (c : Contract) (g : Memo) (s : Site κ) : Prop where
  locked : ∀ d, g.held d → s.disk.locked d .transferLock = true
  clear : ∀ d, g.held d → g.clear d → c.fills d → s.disk.lookup d .sealed = none
  seen : ∀ d b, c.Grip g d → g.seen d b → s.Removed d ∨ s.disk.Holds d b

end Contract

/-! ## What an operation can do to a layout -/

section

variable {s s' s'' : Disk (FileName κ) (Content κ)} {c c' : Contract} {g g' : Memo}
  {o : FsOp (FileName κ) (Content κ)}

/-- What a permitted operation leaves of payloads, seals and locks. -/
structure Touches (o : FsOp (FileName κ) (Content κ)) (s s' : Disk (FileName κ) (Content κ)) :
    Prop where
  data : ∀ d x, s.reads d .data = some x → (∃ r ∈ o.removes, r <:+ d) ∨
    s'.reads d .data = some x ∨ ∃ src, o = .transfer src d .data
  mark : ∀ d, s.lookup d .sealed ≠ none → (∃ r ∈ o.removes, r <:+ d) ∨ s'.lookup d .sealed ≠ none
  «sealed» : ∀ d, s'.lookup d .sealed ≠ none → s.lookup d .sealed ≠ none ∨ ∃ a,
    o = .rename d a .sealed
  locked : ∀ d, s.locked d .transferLock = true →
    s'.locked d .transferLock = true ∨ o = .unlock d .transferLock

namespace Touches

theorem refl : Touches o s s :=
  ⟨fun _ _ h => .inr (.inl h), fun _ h => .inr h, fun _ h => .inl h, fun _ h => .inl h⟩

theorem same (h : s'.lookup = s.lookup) (hl : s'.locked = s.locked) : Touches o s s' := by
  refine ⟨fun d x hx => .inr (.inl ?_), fun d hd => .inr ?_, fun d hd =>
    .inl ?_, fun d hd => .inl ?_⟩
  · rw [Disk.reads, h]
    exact hx
  · rwa [h]
  · rwa [← h]
  · rwa [hl]

theorem trans (h : Touches o s s') (h' : Touches o s' s'') : Touches o s s'' := by
  refine ⟨fun d x hx => ?_, fun d hd => ?_, fun d hd => ?_, fun d hd => ?_⟩
  · rcases h.data d x hx with hr | hx | hc
    · exact .inl hr
    · exact h'.data d x hx
    · exact .inr (.inr hc)
  · rcases h.mark d hd with hr | hd
    · exact .inl hr
    · exact h'.mark d hd
  · rcases h'.sealed d hd with hd | hc
    · exact h.sealed d hd
    · exact .inr hc
  · rcases h.locked d hd with hd | hh
    · exact h'.locked d hd
    · exact .inr hh

theorem pruned {d : Dir} (h : Disk.Pruned d s s') : Touches (.removeDirAll d) s s' := by
  have outside : ∀ {d'}, ¬ d <:+ d' → ∀ n, s'.lookup d' n = s.lookup d' n := by
    intro d' hd n
    simp only [Disk.lookup, (h.outside d' hd).1, (h.outside d' hd).2]
  have left : ∀ {d' n}, s'.lookup d' n ≠ none → s.lookup d' n ≠ none := by
    intro d' n hl
    have there := Disk.dir_of_lookup hl
    simp only [Disk.lookup, there, if_true] at hl
    simp only [Disk.lookup, h.inside d' there, if_true]
    rcases h.file d' n with he | he
    · rwa [← he]
    · exact (hl he).elim
  refine ⟨fun d' x hx => ?_, fun d' hd => ?_, fun d' hd => .inl (left hd), fun d' hd => .inl ?_⟩
  · by_cases hr : d <:+ d'
    · exact .inl ⟨d, List.mem_singleton.mpr rfl, hr⟩
    · exact .inr (.inl (by rwa [Disk.reads, outside hr]))
  · by_cases hr : d <:+ d'
    · exact .inl ⟨d, List.mem_singleton.mpr rfl, hr⟩
    · exact .inr (by rwa [outside hr])
  · rwa [h.locked]

variable [DecidableEq κ] {d : Dir} {n : FileName κ}

theorem put {f : Option (File (Content κ))}
    (hd : n = .data → s.lookup d .data = none ∨ f.map File.content = s.reads d .data ∨
      ∃ src, o = .transfer src d .data)
    (hs : n = .sealed → f ≠ none ∧ (s.lookup d .sealed ≠ none ∨ ∃ a, o = .rename d a .sealed)) :
    Touches o s (s.put d n f) := by
  refine ⟨fun d' x hx => ?_, fun d' hd' => ?_, fun d' hd' => ?_, fun _ h => .inl h⟩
  · rw [Disk.reads, Disk.lookup_put]
    by_cases he : d' = d ∧ (FileName.data : FileName κ) = n
    · obtain ⟨rfl, rfl⟩ := he
      have there : s.dir d' = true := Disk.dir_of_lookup (n := .data) fun hn => by
        simp [Disk.reads, hn] at hx
      rw [if_pos ⟨rfl, rfl⟩, if_pos there]
      rcases hd rfl with hn | hf | hc
      · simp [Disk.reads, hn] at hx
      · exact .inr (.inl (hf.trans hx))
      · exact .inr (.inr hc)
    · rw [if_neg he]
      exact .inr (.inl hx)
  · rw [Disk.lookup_put]
    by_cases he : d' = d ∧ (FileName.sealed : FileName κ) = n
    · obtain ⟨rfl, rfl⟩ := he
      rw [if_pos ⟨rfl, rfl⟩, if_pos (Disk.dir_of_lookup hd')]
      exact .inr (hs rfl).1
    · rw [if_neg he]
      exact .inr hd'
  · rw [Disk.lookup_put] at hd'
    by_cases he : d' = d ∧ (FileName.sealed : FileName κ) = n
    · obtain ⟨rfl, rfl⟩ := he
      exact (hs rfl).2
    · rw [if_neg he] at hd'
      exact .inl hd'

theorem setLock {b : Bool} (h : n = .transferLock → b = false → o = .unlock d .transferLock) :
    Touches o s (s.setLock d n b) := by
  refine ⟨fun _ _ hx => .inr (.inl hx), fun _ hd => .inr hd, fun _ hd => .inl hd, fun d' hd => ?_⟩
  simp only [Disk.setLock]
  split
  · rename_i he
    obtain ⟨rfl, rfl⟩ := he
    cases b with
    | true => exact .inl rfl
    | false => exact .inr (h rfl rfl)
  · exact .inl hd

end Touches

variable [DecidableEq κ]

/-- A permitted operation, done in full or in part. -/
theorem Contract.touches (hp : c.permits g o) (ht : s.Tear o s') : Touches o s s' := by
  cases ht with
  | before => exact .refl
  | @create d n _ c' hd hn =>
    exact .put (fun he => .inl (he ▸ hn)) fun he => (hp he).elim
  | syncDir hf => exact .same (by funext d n; simp [Disk.lookup, hf.dir, hf.file]) hf.locked
  | removeDirAll hr => exact .pruned hr
  | @transfer src dst n _ hd =>
    obtain ⟨rfl, hc⟩ := hp
    exact .put (fun _ => .inr (.inr ⟨src, rfl⟩)) (by simp)
  | after _ u =>
    cases o with
    | existsDir | existsFile | read | access => exact .refl
    | uuid => exact .same rfl rfl
    | createDir d =>
      simp only [Disk.respond]
      split
      · exact .refl
      · rename_i hn
        split
        · refine .same ?_ rfl
          funext d' n
          exact Disk.lookup_mkdir _ _ _ _ (by simpa using hn)
        · exact .refl
    | create d n c =>
      simp only [Disk.respond]
      split
      · split
        · rename_i hn
          exact .put (fun he => .inl (he ▸ hn)) fun he => (hp he).elim
        · exact .refl
      · exact .refl
    | syncFile d n =>
      simp only [Disk.respond]
      split
      · exact .refl
      · rename_i f hf
        refine .put (fun he => .inr (.inl ?_)) fun he => ⟨by simp, .inl ?_⟩
        · subst he
          simp [Disk.reads, hf]
        · subst he
          simp [hf]
    | syncDir d =>
      simp only [Disk.respond]
      split
      · exact .same rfl rfl
      · exact .refl
    | rename d a n =>
      obtain ⟨ha, hn, -⟩ := hp
      simp only [Disk.respond]
      split
      · exact .refl
      · refine (Touches.put (fun he => ?_) fun he => ?_).trans (.put (fun he => (hn he).elim) ?_)
        · subst he
          exact ha.elim
        · subst he
          exact ha.elim
        · rintro rfl
          exact ⟨by simp, .inr ⟨a, rfl⟩⟩
    | hardLink d a n =>
      simp only [Disk.respond]
      split
      · exact .refl
      · exact .refl
      · rename_i hn
        exact .put (fun he => .inl (he ▸ hn)) fun he => (hp he).elim
    | removeFile d n =>
      simp only [Disk.respond]
      split
      · exact .refl
      · exact .put (fun he => (hp.1 he).elim) fun he => (hp.2 he).elim
    | removeDirAll d =>
      simp only [Disk.respond]
      split
      · exact .pruned (Disk.pruned_prune s d)
      · exact .refl
    | tryLock d n =>
      simp only [Disk.respond]
      split
      · exact .refl
      · exact .setLock (by simp)
    | unlock d n =>
      refine .setLock ?_
      rintro rfl -
      rfl
    | transfer src d n =>
      obtain ⟨rfl, -⟩ := hp
      simp only [Disk.respond]
      split
      · exact .refl
      · split
        · exact .put (fun _ => .inr (.inr ⟨src, rfl⟩)) (by simp)
        · exact .refl

end

/-! ## What programs may rely on -/

section

variable {s s' : Site κ} {c c' : Contract} {g g' : Memo} {o : FsOp (FileName κ) (Content κ)}

/-- No copy fills a directory that an import has made. -/
def Contract.Discreet (c : Contract) (g : Memo) (c' : Contract) : Prop :=
  ∀ d, c.imports → g.made d → ¬ c'.fills d

theorem Site.Removed.later {d : Dir} (hr : s'.removed = o.removes ++ s.removed)
    (h : (∃ r ∈ o.removes, r <:+ d) ∨ s.Removed d) : s'.Removed d := by
  rw [Site.Removed, hr]
  rcases h with ⟨r, hm, hd⟩ | ⟨r, hm, hd⟩
  · exact ⟨r, List.mem_append_left _ hm, hd⟩
  · exact ⟨r, List.mem_append_right _ hm, hd⟩

namespace Contract.Relies

theorem others (h : c'.Relies g' s) (hp : c.permits g o) (apart : ∀ d, g.held d → ¬ g'.held d)
    (discreet : c.Discreet g c') (discreet' : c'.Discreet g' c) (ht : Touches o s.disk s'.disk)
    (hr : s'.removed = o.removes ++ s.removed) : c'.Relies g' s' := by
  refine ⟨fun d hd => ?_, fun d hd hc hf => ?_, fun d b hg hb => ?_⟩
  · rcases ht.locked d (h.locked d hd) with hl | rfl
    · exact hl
    · exact (apart d (hp rfl) hd).elim
  · by_contra hn
    rcases ht.sealed d hn with hs | ⟨a, rfl⟩
    · exact hs (h.clear d hd hc hf)
    · rcases (hp.2.2 rfl).1 with hh | ⟨hi, hm⟩
      · exact apart d hh hd
      · exact discreet d hi hm hf
  · rcases h.seen d b hg hb with hx | hx
    · exact .inl (.later hr (.inr hx))
    · rcases ht.data d _ (Disk.reads_eq_some.mpr hx) with hx | hx | ⟨src, rfl⟩
      · exact .inl (.later hr (.inl hx))
      · exact .inr (Disk.reads_eq_some.mp hx)
      · obtain ⟨-, hf, hh, -⟩ := hp
        rcases hg with hd | ⟨hi, hm⟩
        · exact (apart d hh hd).elim
        · exact (discreet' d hi hm hf).elim

theorem after (h : c.Relies g s) (ht : Touches o s.disk s'.disk)
    (hr : s'.removed = o.removes ++ s.removed)
    (held : ∀ d, g'.held d → g.held d ∧ o ≠ .unlock d .transferLock ∨
      s'.disk.locked d .transferLock = true)
    (clear : ∀ d, g'.held d → g'.clear d → g.held d ∧ g.clear d ∧ (∀ a, o ≠ .rename d a .sealed) ∨
      s'.disk.lookup d .sealed = none)
    (seen : ∀ d b, c.Grip g' d → g'.seen d b → c.Grip g d ∧ g.seen d b ∧
      (∀ src, o ≠ .transfer src d .data) ∨ s'.disk.Holds d b) : c.Relies g' s' := by
  refine ⟨fun d hd => ?_, fun d hd hc hf => ?_, fun d b hg hb => ?_⟩
  · rcases held d hd with ⟨hd, hn⟩ | hl
    · exact (ht.locked d (h.locked d hd)).resolve_right hn
    · exact hl
  · rcases clear d hd hc with ⟨hd, hc, hn⟩ | hl
    · by_contra hs
      rcases ht.sealed d hs with hs | ⟨a, ha⟩
      · exact hs (h.clear d hd hc hf)
      · exact hn a ha
    · exact hl
  · rcases seen d b hg hb with ⟨hg, hb, hn⟩ | hl
    · rcases h.seen d b hg hb with hx | hx
      · exact .inl (.later hr (.inr hx))
      · rcases ht.data d _ (Disk.reads_eq_some.mpr hx) with hx | hx | ⟨src, hx⟩
        · exact .inl (.later hr (.inl hx))
        · exact .inr (Disk.reads_eq_some.mp hx)
        · exact (hn src hx).elim
    · exact .inr hl

theorem going (h : c.Relies g s) (ht : Touches o s.disk s'.disk)
    (hr : s'.removed = o.removes ++ s.removed) (unlock : ∀ d, o ≠ .unlock d .transferLock)
    (rename : ∀ d a, o ≠ .rename d a .sealed)
    (transfer : ∀ src d b, g.seen d b → o ≠ .transfer src d .data) : c.Relies g s' :=
  h.after ht hr (fun d hd => .inl ⟨hd, unlock d⟩) (fun d hd hc => .inl ⟨hd, hc, rename d⟩)
    fun d b hg hb => .inl ⟨hg, hb, fun src => transfer src d b hb⟩

variable [DecidableEq κ] {π : Policy (FileName κ) (Content κ)}

theorem bit {src d : Dir} {n : FileName κ} (h : c.Relies g s) (hp : c.permits g (.transfer src d n))
    (ht : s.disk.Tear (.transfer src d n) s'.disk) (hr : s'.removed = s.removed) :
    c.Relies g s' := by
  refine h.going (touches hp ht) hr nofun nofun fun src' d' b hb he => ?_
  obtain ⟨-, rfl, -⟩ := he
  exact hp.2.2.2.2 b hb

theorem own {x : o.Ans} (h : c.Relies g s) (hp : c.permits g o)
    (hs : (siteMachine π).step s o x s') : c.Relies (g.note o x) s' := by
  obtain ⟨hs, hr⟩ := hs
  have ht := touches hp hs.tear
  cases o with
  | existsDir | syncFile | syncDir | hardLink | removeFile | removeDirAll | access | uuid =>
    exact h.going ht hr (by simp) (by simp) (by simp)
  | transfer src d n => exact h.bit hp hs.tear hr
  | existsFile d n =>
    have going : c.Relies g s' := h.going ht hr (by simp) (by simp) (by simp)
    cases n with
    | «sealed» =>
      cases x with
      | true => exact going
      | false =>
        obtain ⟨hx, he⟩ := hs.existsFile rfl
        refine h.after ht hr (fun d hd => .inl ⟨hd, by simp⟩) ?_ fun d b hg hb =>
          .inl ⟨hg, hb, by simp⟩
        rintro d' hd (rfl | hc)
        · rw [he]
          exact .inr (by simpa using hx.symm)
        · exact .inl ⟨hd, hc, by simp⟩
    | _ => exact going
  | read d n =>
    have going : c.Relies g s' := h.going ht hr (by simp) (by simp) (by simp)
    cases n with
    | data =>
      rcases x with e | x
      · exact going
      cases x with
      | bytes b =>
        obtain ⟨⟨_, y⟩, hf, rfl, he⟩ := hs.read_ok
        refine h.after ht hr (fun d hd => .inl ⟨hd, by simp⟩)
          (fun d hd hc => .inl ⟨hd, hc, by simp⟩) ?_
        rintro d' b' hg (⟨rfl, rfl⟩ | hb)
        · rw [he]
          exact .inr ⟨y, hf⟩
        · exact .inl ⟨hg, hb, by simp⟩
      | _ => exact going
    | _ => exact going
  | createDir d =>
    rcases x with e | ⟨⟩
    · exact h.going ht hr (by simp) (by simp) (by simp)
    refine h.after ht hr (fun d hd => .inl ⟨hd, by simp⟩) (fun d hd hc => .inl ⟨hd, hc, by simp⟩) ?_
    rintro d' b hg ⟨hn, hb⟩
    refine .inl ⟨?_, hb, by simp⟩
    rcases hg with hd | ⟨hi, rfl | hm⟩
    · exact .inl hd
    · exact (hn rfl).elim
    · exact .inr ⟨hi, hm⟩
  | create d n v =>
    have going : c.Relies g s' := h.going ht hr (by simp) (by simp) (by simp)
    cases n with
    | data =>
      cases v with
      | bytes b =>
        rcases x with e | ⟨⟩
        · exact going
        obtain ⟨hd, -, he⟩ := hs.create_ok
        refine h.after ht hr (fun d hd => .inl ⟨hd, by simp⟩)
          (fun d hd hc => .inl ⟨hd, hc, by simp⟩) ?_
        rintro d' b' hg (⟨rfl, rfl⟩ | hb)
        · rw [he]
          exact .inr ⟨false, by simp [Disk.lookup_put, hd]⟩
        · exact .inl ⟨hg, hb, by simp⟩
      | _ => exact going
    | _ => exact going
  | rename d a n =>
    cases n with
    | «sealed» =>
      refine h.after ht hr (fun d hd => .inl ⟨hd, by simp⟩) ?_ fun d b hg hb =>
        .inl ⟨hg, hb, by simp⟩
      rintro d' hd ⟨hn, hc⟩
      refine .inl ⟨hd, hc, fun a he => hn ?_⟩
      cases he
      rfl
    | _ => exact h.going ht hr (by simp) (by simp) (by simp)
  | tryLock d n =>
    have going : c.Relies g s' := h.going ht hr (by simp) (by simp) (by simp)
    cases n with
    | transferLock =>
      rcases x with e | ⟨⟩
      · exact going
      obtain ⟨-, he⟩ := hs.tryLock_ok
      refine h.after ht hr ?_ ?_ ?_
      · rintro d' (rfl | hd)
        · rw [he]
          exact .inr (by simp [Disk.setLock])
        · exact .inl ⟨hd, by simp⟩
      · rintro d' (rfl | hd) ⟨hn, hc⟩
        · exact (hn rfl).elim
        · exact .inl ⟨hd, hc, by simp⟩
      · rintro d' b hg ⟨hn, hb⟩
        refine .inl ⟨?_, hb, by simp⟩
        rcases hg with (rfl | hd) | hm
        · exact (hn rfl).elim
        · exact .inl hd
        · exact .inr hm
    | _ => exact going
  | unlock d n =>
    cases n with
    | transferLock =>
      refine h.after ht hr ?_ ?_ ?_
      · rintro d' ⟨hn, hd⟩
        refine .inl ⟨hd, fun he => hn ?_⟩
        cases he
        rfl
      · rintro d' ⟨-, hd⟩ hc
        exact .inl ⟨hd, hc, by simp⟩
      · rintro d' b hg hb
        refine .inl ⟨?_, hb, by simp⟩
        rcases hg with hd | hm
        · exact .inl hd.2
        · exact .inr hm
    | _ => exact h.going ht hr (by simp) (by simp) (by simp)

theorem parted {x : o.Ans} (h' : c'.Relies g' s) (apart : ∀ d, g.held d → ¬ g'.held d)
    (hs : (siteMachine π).step s o x s') : ∀ d, (g.note o x).held d → ¬ g'.held d := by
  cases o with
  | tryLock d n =>
    cases n with
    | transferLock =>
      rcases x with e | ⟨⟩
      · exact apart
      obtain ⟨hl, -⟩ := hs.1.tryLock_ok
      rintro d' (rfl | hd) hd'
      · rw [h'.locked d' hd'] at hl
        cases hl
      · exact apart d' hd hd'
    | _ => exact apart
  | unlock d n =>
    cases n with
    | transferLock => exact fun d' hd => apart d' hd.2
    | _ => exact apart
  | existsFile d n => cases n <;> cases x <;> exact apart
  | read d n =>
    cases n with
    | data =>
      rcases x with e | x
      · exact apart
      · cases x <;> exact apart
    | _ => exact apart
  | createDir d => cases x <;> exact apart
  | create d n v => cases n <;> cases v <;> cases x <;> exact apart
  | rename d a n => cases n <;> exact apart
  | _ => exact apart

end Contract.Relies

end

end HsmRs
