import HsmRs.Local.Adapters
import HsmRs.Local.Careful
import HsmRs.Storage.Play

/-! # Sealed layouts are immutable

Copies, calls of the adapters and crashes in any interleaving. A layout is sealed by a
call that has verified its payload, and from then on the payload stays what it was until
the layout is removed.
-/

namespace HsmRs

section

variable {κ : Type} [DecidableEq κ] [KeyHash κ] [Crates]

inductive Task (κ : Type)
  | copy (ctx : OperationContext) (source destination : DataEndpoint)
  | storage (store : LocalStorage κ) (request : Request)
  | archive (store : LocalArchive) (call : BackendCall)
  | openStorage (root : Dir)
  | openArchive (root : Dir) (id : String)

namespace Task

def program : Task κ → Prog (LocalSig κ) Unit
  | copy ctx source destination => do
      let _ ← (LocalDataMover.copy ctx source destination).run
  | storage store request => do
      let _ ← store.perform request
  | archive store call => do
      let _ ← Stores.backendCall store call
  | openStorage root => do
      let _ ← (LocalStorage.open (κ := κ) root).run
  | openArchive root id => do
      let _ ← (LocalArchive.open root id).run

/-- `d` is the layout of the target, and `b` has the length and the digest of the view. -/
def Attests (target : ArchiveTarget) (view : DataView) (d : Dir) (b : Bytes) : Prop :=
  (∃ e, decodeEndpoint target.destination = .ok e ∧ d = e.root) ∧
    view.length = b.length ∧ view.digest = digestOf b

/-- The layouts that a task may fill, and what it verifies of a payload before it seals it. -/
def contract : Task κ → Contract
  | copy _ _ destination =>
      { fills := fun d => ∃ e, decodeEndpoint destination = .ok e ∧ d = e.root
        verified := fun _ _ => False
        imports := False }
  | storage store (.step _ (.commitRecall target evidence)) =>
      { fills := fun _ => False
        verified := fun d b => d = layoutDir store.root target.layoutId ∧
          evidence = ⟨b.length, digestOf b⟩ ∧ ∃ entity,
            store.state.entity target.data = .ok entity ∧
            entity.public.length = b.length ∧ entity.public.digest = digestOf b
        imports := False }
  | storage _ (.import _ bytes) =>
      { fills := fun _ => False
        verified := fun _ b => b = bytes
        imports := True }
  | archive _ (.commit _ target view evidence) =>
      { fills := fun _ => False
        verified := fun d b => Attests target view d b ∧ evidence = ⟨b.length, digestOf b⟩
        imports := False }
  | archive _ (.resumeCommit _ target view) =>
      { fills := fun _ => False, verified := Attests target view, imports := False }
  | _ => { fills := fun _ => False, verified := fun _ _ => False, imports := False }

theorem keeps_contract (t : Task κ) : t.contract.Keeps (fun _ => False) .blank t.program := by
  cases t with
  | copy ctx source destination =>
    exact Contract.Keeps.answering (LocalDataMover.keeps_copy fun e he => ⟨e, he, rfl⟩)
  | openStorage root => exact Contract.Keeps.answering (.harmless LocalStorage.harmless_open nofun)
  | openArchive root id =>
    exact Contract.Keeps.answering (.harmless LocalArchive.harmless_open nofun)
  | storage store request =>
    refine Contract.Keeps.answering ?_
    cases request with
    | «import» entityId bytes =>
      exact Contract.Keeps.answering (LocalStorage.keeps_import trivial fun _ => rfl)
    | collectGarbage => exact Contract.Keeps.answering LocalStorage.keeps_collectGarbage
    | step ctx request =>
      cases request with
      | prepareArchive data =>
        exact Contract.Keeps.answering (LocalStorage.keeps_step
          (.harmless LocalStorage.harmless_prepareArchiveEffect nofun))
      | commitArchive view receipt =>
        exact Contract.Keeps.answering
          (LocalStorage.keeps_step LocalStorage.keeps_commitArchiveEffect)
      | release expected =>
        exact Contract.Keeps.answering (LocalStorage.keeps_step LocalStorage.keeps_releaseEffect)
      | prepareRecall expected anchor =>
        exact Contract.Keeps.answering (LocalStorage.keeps_step
          (.harmless LocalStorage.harmless_prepareRecallEffect nofun))
      | commitRecall target evidence =>
        refine Contract.Keeps.answering (LocalStorage.keeps_step ?_)
        exact LocalStorage.keeps_commitRecallEffect fun b entity hb he hl hd =>
          ⟨rfl, hb, entity, he, hl, hd⟩
  | archive store call =>
    refine Contract.Keeps.answering ?_
    cases call with
    | inspect key => exact .harmless LocalArchive.harmless_inspect nofun
    | prepare ctx key view => exact .harmless LocalArchive.harmless_prepare nofun
    | «open» receipt => exact .harmless LocalArchive.harmless_openReceipt nofun
    | resumeCommit ctx target view =>
      exact LocalArchive.keeps_resumeCommit fun b e he hl hd => ⟨⟨e, he, rfl⟩, hl, hd⟩
    | commit ctx target view evidence =>
      exact LocalArchive.keeps_commit fun b e he hl hd hb => ⟨⟨⟨e, he, rfl⟩, hl, hd⟩, hb⟩

end Task

/-! ## Runs -/

namespace Site

/-- A crash takes the transfer locks of all programs but those that go on, and any of the
other locks. -/
structure Dropped (kept : List Memo) (s s' : Site κ) : Prop where
  disk : s'.disk = { s.disk with locked := s'.disk.locked }
  removed : s'.removed = s.removed
  dropped : ∀ d n, s'.disk.locked d n = true → s.disk.locked d n = true
  transfer : ∀ d, s'.disk.locked d .transferLock = true ↔ ∃ g ∈ kept, g.held d

end Site

/-- The adapters on a file system. A transfer writes bit by bit. -/
def adapters (π : Policy (FileName κ) (Content κ)) : Plant (LocalSig κ) (Site κ) (Task κ) Memo where
  machine := siteMachine π
  program := Task.program
  clear := .blank
  note := Memo.note
  slow o := ∃ src d n, o = .transfer src d n
  crash := Site.Dropped

/-- No copy is directed at a layout that an import under way has made, as only the import
knows its name. -/
def Secluded (t : Task κ) (g : Memo) (t' : Task κ) (g' : Memo) : Prop :=
  t.contract.Discreet g t'.contract ∧ t'.contract.Discreet g' t.contract

def sessions (π : Policy (FileName κ) (Content κ)) : Discipline (adapters π) where
  permits t := t.contract.permits
  relies t := t.contract.Relies
  apart _ g _ g' := ∀ d, g.held d → ¬ g'.held d
  allowed := Secluded
  symm h d hd' hd := h d hd hd'
  allowed_symm := And.symm
  careful t := t.keeps_contract.mono fun _ _ _ => trivial
  clear _ _ := ⟨nofun, nofun, nofun⟩
  clear_apart _ _ _ := nofun
  own hp h hs := h.own hp hs
  bit := by
    rintro t g o s s' ⟨src, d, n, rfl⟩ hp h ht
    exact h.bit hp ht.1 ht.2
  others hp h apart hl hs := by
    have ht := hs.elim (fun ht => ht) fun ⟨x, hs⟩ => ⟨hs.1.tear, hs.2⟩
    exact h.others hp apart hl.1 hl.2 (Contract.touches hp ht.1) ht.2
  crash hg h hc := by
    have lookup : ∀ d n, _ = _ := fun d n => congrFun (congrFun (congrArg Disk.lookup hc.disk) d) n
    refine ⟨fun d hd => (hc.transfer d).mpr ⟨_, hg, hd⟩, fun d hd hn hf => ?_, fun d b hd hb => ?_⟩
    · rw [lookup]
      exact h.clear d hd hn hf
    · rcases h.seen d b hd hb with hr | ⟨x, hx⟩
      · refine .inl ?_
        rwa [Site.Removed, hc.removed]
      · exact .inr ⟨x, (lookup _ _).trans hx⟩
  parted _ _ h' apart hs := h'.parted apart hs

/-! ## Seals and payloads -/

section

omit [DecidableEq κ] [KeyHash κ] [Crates]

variable {c c' : Contract} {g g' : Memo} {o o' : FsOp (FileName κ) (Content κ)} {s s' s'' : Site κ}
  {d : Dir} {b : Bytes}

namespace Site

/-- `d` is sealed and `b` is its payload. -/
def Fixed (s : Site κ) (d : Dir) (b : Bytes) : Prop :=
  s.disk.lookup d .sealed ≠ none ∧ s.disk.Holds d b

/-- Payloads of sealed layouts stay until the layout is removed. -/
structure Keeps (s s' : Site κ) : Prop where
  removed : ∀ d, s.Removed d → s'.Removed d
  fixed : ∀ d b, s.Fixed d b → s'.Removed d ∨ s'.Fixed d b

theorem Keeps.refl (s : Site κ) : s.Keeps s := ⟨fun _ h => h, fun _ _ h => .inr h⟩

theorem Keeps.trans (h : s.Keeps s') (h' : s'.Keeps s'') : s.Keeps s'' := by
  refine ⟨fun d hd => h'.removed d (h.removed d hd), fun d b hb => ?_⟩
  rcases h.fixed d b hb with hr | hb
  · exact .inl (h'.removed d hr)
  · exact h'.fixed d b hb

end Site

/-- What holds before the operation `o` of a program: a layout that is filled is not sealed,
and the payload of one that is being sealed has been verified. -/
structure Standing (c : Contract) (o : FsOp (FileName κ) (Content κ)) (s : Site κ) : Prop where
  fills : ∀ src d n, o = .transfer src d n → s.disk.lookup d .sealed = none
  seals : ∀ d a, o = .rename d a .sealed → ∃ b, c.verified d b ∧ (s.Removed d ∨ s.disk.Holds d b)

theorem Contract.Relies.standing (h : c.Relies g s) (hp : c.permits g o) : Standing c o s := by
  refine ⟨?_, ?_⟩
  · rintro src d n rfl
    obtain ⟨-, hf, hh, hc, -⟩ := hp
    exact h.clear d hh hc hf
  · rintro d a rfl
    obtain ⟨hg, b, hb, hv⟩ := hp.2.2 rfl
    exact ⟨b, hv, h.seen d b hg hb⟩

namespace Standing

theorem others (h : Standing c' o' s) (hp' : c'.permits g' o') (hp : c.permits g o)
    (apart : ∀ d, g.held d → ¬ g'.held d) (discreet : c.Discreet g c')
    (discreet' : c'.Discreet g' c)
    (ht : Touches o s.disk s'.disk) (hr : s'.removed = o.removes ++ s.removed) :
    Standing c' o' s' := by
  refine ⟨?_, ?_⟩
  · rintro src d n rfl
    obtain ⟨-, hf, hh, -⟩ := hp'
    by_contra hn
    rcases ht.sealed d hn with hs | ⟨a, rfl⟩
    · exact hs (h.fills src d n rfl)
    · rcases (hp.2.2 rfl).1 with hd | ⟨hi, hm⟩
      · exact apart d hd hh
      · exact discreet d hi hm hf
  · rintro d a rfl
    obtain ⟨b, hv, hb⟩ := h.seals d a rfl
    refine ⟨b, hv, ?_⟩
    rcases hb with hb | hb
    · exact .inl (.later hr (.inr hb))
    · rcases ht.data d _ (Disk.reads_eq_some.mpr hb) with hx | hx | ⟨src, rfl⟩
      · exact .inl (.later hr (.inl hx))
      · exact .inr (Disk.reads_eq_some.mp hx)
      · obtain ⟨-, hf, hh, -⟩ := hp
        rcases (hp'.2.2 rfl).1 with hd | ⟨hi, hm⟩
        · exact (apart d hh hd).elim
        · exact (discreet' d hi hm hf).elim

theorem self (h : Standing c o s) (ht : Touches o s.disk s'.disk)
    (hr : s'.removed = o.removes ++ s.removed) : Standing c o s' := by
  refine ⟨?_, ?_⟩
  · rintro src d n rfl
    by_contra hn
    rcases ht.sealed d hn with hs | ⟨a, ha⟩
    · exact hs (h.fills src d n rfl)
    · cases ha
  · rintro d a rfl
    obtain ⟨b, hv, hb⟩ := h.seals d a rfl
    refine ⟨b, hv, ?_⟩
    rcases hb with hb | hb
    · exact .inl (.later hr (.inr hb))
    · rcases ht.data d _ (Disk.reads_eq_some.mpr hb) with hx | hx | ⟨src, hx⟩
      · exact .inl (.later hr (.inl hx))
      · exact .inr (Disk.reads_eq_some.mp hx)
      · cases hx

theorem keeps (h : Standing c o s) (ht : Touches o s.disk s'.disk)
    (hr : s'.removed = o.removes ++ s.removed) : s.Keeps s' := by
  refine ⟨fun d hd => .later hr (.inr hd), fun d b ⟨hs, hb⟩ => ?_⟩
  rcases ht.mark d hs with hx | hs'
  · exact .inl (.later hr (.inl hx))
  · rcases ht.data d _ (Disk.reads_eq_some.mpr hb) with hx | hx | ⟨src, rfl⟩
    · exact .inl (.later hr (.inl hx))
    · exact .inr ⟨hs', Disk.reads_eq_some.mp hx⟩
    · exact (hs (h.fills src d .data rfl)).elim

/-- A seal that appears is one that has been verified. -/
theorem appears (h : Standing c o s) (ht : Touches o s.disk s'.disk)
    (hr : s'.removed = o.removes ++ s.removed) (hn : s.disk.lookup d .sealed = none)
    (hs : s'.disk.lookup d .sealed ≠ none) :
    s'.Removed d ∨ ∃ b, c.verified d b ∧ s'.Fixed d b := by
  rcases ht.sealed d hs with hs' | ⟨a, rfl⟩
  · exact (hs' hn).elim
  · obtain ⟨b, hv, hb⟩ := (h.self ht hr).seals d a rfl
    rcases hb with hb | hb
    · exact .inl hb
    · exact .inr ⟨b, hv, hs, hb⟩

end Standing

end

/-! ## Steps -/

variable {π : Policy (FileName κ) (Content κ)} {s s' : Site κ}
  {ts ts' : List (Thread (LocalSig κ) (Task κ) Memo)}
  {p p' : Pool (LocalSig κ) (Site κ) (Task κ) Memo}

/-- Payloads of sealed layouts stay, and a layout that becomes sealed has the payload that one of
the programs has verified. -/
structure Follows (ts : List (Thread (LocalSig κ) (Task κ) Memo)) (s s' : Site κ) : Prop where
  keeps : s.Keeps s'
  appears : ∀ d, s.disk.lookup d .sealed = none → s'.disk.lookup d .sealed ≠ none →
    s'.Removed d ∨ ∃ t ∈ ts, ∃ b, t.task.contract.verified d b ∧ s'.Fixed d b

namespace Follows

omit [DecidableEq κ] [KeyHash κ]

theorem refl (ts : List (Thread (LocalSig κ) (Task κ) Memo)) (s : Site κ) : Follows ts s s :=
  ⟨.refl s, fun _ hn hs => (hs hn).elim⟩

theorem mono (h : Follows ts s s') (hs : ∀ t ∈ ts, t ∈ ts') : Follows ts' s s' := by
  refine ⟨h.keeps, fun d hn hd => ?_⟩
  rcases h.appears d hn hd with hr | ⟨t, ht, hb⟩
  · exact .inl hr
  · exact .inr ⟨t, hs t ht, hb⟩

theorem trans {s'' : Site κ} (h : Follows ts s s') (h' : Follows ts s' s'') : Follows ts s s'' := by
  refine ⟨h.keeps.trans h'.keeps, fun d hn hd => ?_⟩
  by_cases hm : s'.disk.lookup d .sealed = none
  · exact h'.appears d hm hd
  · rcases h.appears d hn hm with hr | ⟨t, ht, b, hv, hb⟩
    · exact .inl (h'.keeps.removed d hr)
    · rcases h'.keeps.fixed d b hb with hr | hb
      · exact .inl hr
      · exact .inr ⟨t, ht, b, hv, hb⟩

theorem same (hl : s'.disk.lookup = s.disk.lookup) (hr : s'.removed = s.removed) :
    Follows ts s s' := by
  have removed : ∀ d, s.Removed d → s'.Removed d := fun d hd => by rwa [Site.Removed, hr]
  refine ⟨⟨removed, fun d b hb => .inr ?_⟩, fun d hn hd => (hd (by rwa [hl])).elim⟩
  rwa [Site.Fixed, Disk.Holds, hl]

end Follows

theorem torn_follows (h : (sessions π).Orderly ⟨s, ts⟩) (hl : (sessions π).Legal ⟨s, ts⟩)
    (ht : Pool.Torn (adapters π) ts s s') :
    (∀ t ∈ ts, ∀ o k, t.rest = .op o k → Standing t.task.contract o s') ∧ Follows ts s s' := by
  have permitted : ∀ t ∈ ts, ∀ o k, t.rest = .op o k → t.task.contract.permits t.notes o := by
    intro t ht o k hr
    have := h.careful t ht
    rw [hr] at this
    exact this.1
  induction ht with
  | refl => exact ⟨fun t ht o k hr => (h.relies t ht).standing (permitted t ht o k hr), .refl ts s⟩
  | @tail s₁ s₂ _ hs ih =>
    obtain ⟨t, ht, o, k, hr, hs⟩ := hs
    obtain ⟨standing, follows⟩ := ih
    have touches := Contract.touches (permitted t ht o k hr) hs.1
    have now := standing t ht o k hr
    refine ⟨fun t' ht' o' k' hr' => ?_, follows.trans ⟨now.keeps touches hs.2, fun d hn hd => ?_⟩⟩
    · by_cases he : t' = t
      · subst he
        rw [hr] at hr'
        cases hr'
        exact now.self touches hs.2
      · obtain ⟨apart, secluded⟩ := h.between hl ht ht' (Ne.symm he)
        exact (standing t' ht' o' k' hr').others (permitted t' ht' o' k' hr')
          (permitted t ht o k hr) apart secluded.1 secluded.2 touches hs.2
    · rcases now.appears touches hs.2 hn hd with hr | hb
      · exact .inl hr
      · exact .inr ⟨t, ht, hb⟩

theorem step_follows (h : (sessions π).Orderly p) (hl : (sessions π).Legal p)
    (hs : Pool.Step (adapters π) p p') : Follows p.threads p.state p'.state := by
  cases hs with
  | begin => exact .refl _ _
  | ended => exact .refl _ _
  | @op s s' a b c g o k x hs =>
    refine (torn_follows h hl (.single ⟨_, Discipline.mem_around.mpr (.inl rfl), o, k, rfl, ?_⟩)).2
    exact ⟨hs.1.tear, hs.2⟩
  | @bit s s' a b c g o k _ ht =>
    exact (torn_follows h hl (.single ⟨_, Discipline.mem_around.mpr (.inl rfl), o, k, rfl, ht⟩)).2
  | @crash s s' s'' ts lost kept hp ht hc =>
    have sub : ∀ t ∈ lost, t ∈ ts := fun t ht => hp.mem_iff.mpr (List.mem_append_left _ ht)
    have ht' : Pool.Torn (adapters π) ts s s' :=
      Relation.ReflTransGen.mono (fun _ _ ⟨t, ht, h⟩ => ⟨t, sub t ht, h⟩) _ _ ht
    have lookup : s''.disk.lookup = s'.disk.lookup := by
      rw [hc.disk]
      rfl
    exact (torn_follows h hl ht').2.trans (.same lookup hc.removed)

/-! ## Whole runs -/

/-- Runs in which no copy is directed at a layout that an import under way has made. -/
abbrev Sessions (π : Policy (FileName κ) (Content κ)) :
    Pool (LocalSig κ) (Site κ) (Task κ) Memo → Pool (LocalSig κ) (Site κ) (Task κ) Memo → Prop :=
  Pool.Steps (adapters π) (sessions π).Legal

def Pool.initial (s : Disk (FileName κ) (Content κ)) : Pool (LocalSig κ) (Site κ) (Task κ) Memo :=
  ⟨⟨s, []⟩, []⟩

theorem orderly_initial (s : Disk (FileName κ) (Content κ)) :
    (sessions π).Orderly (.initial s) := ⟨nofun, nofun, .nil⟩

theorem steps_keep (h : (sessions π).Orderly p) (hs : Sessions π p p') :
    p.state.Keeps p'.state := by
  induction hs with
  | refl => exact .refl _
  | tail hs step ih => exact ih.trans (step_follows (h.steps hs) step.1 step.2).keeps

/-- No copy writes into a sealed layout, a layout is sealed only over a payload that the sealing
call has verified, and from then on the payload stays the same until the layout is removed. -/
theorem sealed_immutable {s : Disk (FileName κ) (Content κ)} (hp : Sessions π (.initial s) p) :
    (∀ t ∈ p.threads, ∀ src d n k, t.rest = .op (.transfer src d n) k →
      p.state.disk.lookup d .sealed = none) ∧
    (∀ p' d, (sessions π).Legal p → Pool.Step (adapters π) p p' →
      p.state.disk.lookup d .sealed = none → p'.state.disk.lookup d .sealed ≠ none →
      p'.state.Removed d ∨ ∃ t ∈ p.threads, ∃ b, t.task.contract.verified d b ∧
        ∀ p'', Sessions π p' p'' → p''.state.Removed d ∨ p''.state.Fixed d b) ∧
    ∀ d b, p.state.Fixed d b → ∀ p', Sessions π p p' → p'.state.Removed d ∨ p'.state.Fixed d b := by
  have orderly := (orderly_initial s).steps hp
  refine ⟨fun t ht src d n k hr => ?_, fun p' d hs step hn hd => ?_, fun d b hb p' hs => ?_⟩
  · have careful := orderly.careful t ht
    rw [hr] at careful
    have relies : t.task.contract.Relies t.notes p.state := orderly.relies t ht
    exact (relies.standing (o := .transfer src d n) careful.1).fills src d n rfl
  · rcases (step_follows orderly hs step).appears d hn hd with hr | ⟨t, ht, b, hv, hb⟩
    · exact .inl hr
    · refine .inr ⟨t, ht, b, hv, fun p'' hs' => ?_⟩
      exact (steps_keep (orderly.step hs step) hs').fixed d b hb
  · exact (steps_keep orderly hs).fixed d b hb

end

namespace Reference

def oneSealed : Disk (FileName Keyed) (Content Keyed) where
  dir d := d = [] ∨ d = ["l"]
  file d n := if d = ["l"] then match n with
    | .data => some ⟨.bytes [1, 2], true⟩
    | .sealed => some ⟨.seal (.imported (digestOf [1, 2])), true⟩
    | _ => none
    else none
  safeDir _ := false
  safeFile _ _ := none
  locked _ _ := false
  issued _ := false

def copying : Pool (LocalSig Keyed) (Site Keyed) (Task Keyed) Memo :=
  let task := .copy ⟨"op", 1, 1⟩ (endpoint ["m"]) (endpoint ["l"])
  ⟨⟨oneSealed, []⟩, [⟨task, .blank, task.program⟩]⟩

theorem fixed_copying : copying.state.Fixed ["l"] [1, 2] := ⟨Option.some_ne_none _, true, rfl⟩

theorem sealed_immutable_copying : copying.threads.length = 1 ∧ ∀ p', Sessions anything copying p' →
    p'.state.Removed ["l"] ∨ p'.state.Fixed ["l"] [1, 2] :=
  ⟨rfl, (sealed_immutable (s := oneSealed) (.single ⟨.nil, .begin _⟩)).2.2 ["l"]
    [1, 2] fixed_copying⟩

/-! ## A copy into a layout that is being imported -/

def Site.perform (names : List String) (o : FsOp (FileName Keyed) (Content Keyed))
    (s : Site Keyed) :
    Option (o.Ans × Site Keyed) :=
  (o.perform names s.disk).map fun x => (x.1, ⟨x.2, o.removes ++ s.removed⟩)

abbrev Session := Thread (LocalSig Keyed) (Task Keyed) Memo

def Session.advance (m : Nat) (t : Session) (s : Site Keyed) : Session × Site Keyed :=
  Thread.advance (adapters anything) (Site.perform ["u1", "t4", "t5"]) m t s

theorem advance_sessions {a b : List Session} {m : Nat} {t : Session} {s : Site Keyed} :
    Pool.Steps (adapters anything) (fun _ => True) ⟨s, a ++ t :: b⟩
      ⟨(Session.advance m t s).2, a ++ (Session.advance m t s).1 :: b⟩ := by
  refine Pool.advance_steps (fun o s x s' h => ?_) fun _ _ => trivial
  obtain ⟨y, hy, h⟩ := Option.map_eq_some_iff.mp h
  cases h
  exact ⟨FsOp.perform_step anything_generous hy, rfl⟩

def «import» (store : LocalStorage Keyed) : Session :=
  ⟨.storage store (.import "f" [1]), .blank, Task.program (.storage store (.import "f" [1]))⟩

def copy : Session :=
  let task := .copy ⟨"op", 1, 1⟩ (endpoint ["u0", "layouts", "s"]) (endpoint ["u1", "layouts", "s"])
  ⟨task, .blank, Task.program task⟩

/-- The import has made its layout, the copy has found no seal there, and the import has sealed. -/
def exposed (store : LocalStorage Keyed) (s : Disk (FileName Keyed) (Content Keyed)) :
    Session × Session × Site Keyed :=
  let x := Session.advance 4 («import» store) ⟨s, []⟩
  let y := Session.advance 7 copy x.2
  let z := Session.advance 7 x.1 y.2
  (y.1, z.1, z.2)

theorem exposed_steps {store : LocalStorage Keyed} {s : Disk (FileName Keyed) (Content Keyed)} :
    let x := exposed store s
    Pool.Steps (adapters anything) (fun _ => True) (.initial s) ⟨x.2.2, [x.1, x.2.1]⟩ := by
  have begun : Pool.Steps (adapters anything) (fun _ => True) (.initial s)
    ⟨⟨s, []⟩, [«import» store]⟩ :=
    .single ⟨trivial, .begin _⟩
  refine begun.trans ((advance_sessions (a := []) (m := 4)).trans ?_)
  refine .head ⟨trivial, .begin copy.task⟩ ((advance_sessions (a := []) (m := 7)).trans ?_)
  exact advance_sessions (a := [_]) (m := 7)

def filling : Prog (LocalSig Keyed) Unit → Option Dir
  | .op (.transfer _ d _) _ => some d
  | _ => none

def payload (s : Site Keyed) (d : Dir) : Option Bytes :=
  match s.disk.lookup d .data with
  | some ⟨.bytes b, _⟩ => some b
  | _ => none

theorem holds_iff {s : Site Keyed} {d : Dir} {b : Bytes} : s.disk.Holds d b ↔
    payload s d = some b := by
  unfold Disk.Holds payload
  constructor
  · rintro ⟨synced, h⟩
    rw [h]
  · intro h
    split at h
    · rename_i b' synced hl
      cases h
      exact ⟨synced, hl⟩
    · cases h

def entered : Option (World Keyed) :=
  (World.start ["s"] ["store", "ns", "t1"] blank).bind <|
    World.play (fun _ => false) [(.import "e" [0], ["u0", "t2", "t3"])]

theorem exposed_copy : ∃ (store : LocalStorage Keyed) (s : Disk (FileName Keyed) (Content Keyed)),
    let x := exposed store s
    filling x.1.rest = some ["u1", "layouts", "s"] ∧
    (x.2.2.disk.lookup ["u1", "layouts", "s"] .sealed).isSome = true ∧
    payload x.2.2 ["u1", "layouts", "s"] = some [1] ∧
    payload (Session.advance 1 x.1 x.2.2).2 ["u1", "layouts", "s"] = some [0] ∧
    (Session.advance 1 x.1 x.2.2).2.removed = [] := by
  have h : (entered.bind fun w => w.handle.map fun store =>
      let x := exposed store w.disk
      (filling x.1.rest, (x.2.2.disk.lookup ["u1", "layouts", "s"] .sealed).isSome,
        payload x.2.2 ["u1", "layouts", "s"])) =
      some (some ["u1", "layouts", "s"], true, some [1]) := by decide +kernel
  have h' : (entered.bind fun w => w.handle.map fun store =>
      let x := exposed store w.disk
      let y := Session.advance 1 x.1 x.2.2
      (payload y.2 ["u1", "layouts", "s"], y.2.removed)) = some (some [0], []) := by decide +kernel
  obtain ⟨w, hw, h⟩ := Option.bind_eq_some_iff.mp h
  obtain ⟨store, hs, h⟩ := Option.map_eq_some_iff.mp h
  rw [hw, Option.bind_some, hs, Option.map_some] at h'
  simp only [Option.some.injEq, Prod.mk.injEq] at h h'
  exact ⟨store, w.disk, h.1, h.2.1, h.2.2, h'.1, h'.2⟩

/-- A copy that is directed at the layout of an import under way can find it unsealed and then
overwrite what the import has sealed. -/
theorem import_exposed :
    (¬ ∀ s p, Pool.Steps (adapters anything) (fun _ => True) (.initial s) p → ∀ t ∈ p.threads,
      ∀ src d n k, t.rest = .op (.transfer src d n) k → p.state.disk.lookup d .sealed = none) ∧
    ¬ ∀ s p p' d b, Pool.Steps (adapters anything) (fun _ => True) (.initial s) p →
      p.state.Fixed d b → Pool.Steps (adapters anything) (fun _ => True) p p' →
      p'.state.Removed d ∨ p'.state.Fixed d b := by
  obtain ⟨store, s, filled, sealed', before, after, removed⟩ := exposed_copy
  constructor
  · intro h
    have unsealed := h s _ exposed_steps (exposed store s).1 (.head _)
    revert filled
    unfold filling
    split
    · rename_i src d n k he
      intro filled
      cases filled
      simp [unsealed src _ n k he] at sealed'
    · nofun
  · intro h
    have fixed : (exposed store s).2.2.Fixed ["u1", "layouts", "s"] [1] :=
      ⟨Option.isSome_iff_ne_none.mp sealed', holds_iff.mpr before⟩
    rcases h s _ _ _ _ exposed_steps fixed
      (advance_sessions (a := []) (m := 1)) with ⟨r, hr, -⟩ | hf
    · rw [removed] at hr
      cases hr
    · cases (holds_iff.mp hf.2).symm.trans after

end Reference

end HsmRs
