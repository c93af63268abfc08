import HsmRs.Archive.Calls
import HsmRs.Local.Executor
import HsmRs.Local.Footprint
import HsmRs.Local.Sealing
import HsmRs.Storage.Calls

/-! # Careful calls

The copies and the calls of the adapters do to layouts only what their contracts permit,
whatever they are answered: a copy fills its destination under its lock after it has found
no seal, and a call that seals a layout has read the payload back before.
-/

namespace HsmRs

variable {κ α β : Type}

def FsOp.Harmless : FsOp (FileName κ) (Content κ) → Prop
  | .create _ n _ => n ≠ .sealed
  | .hardLink _ _ n => n ≠ .sealed
  | .rename _ a n => a.IsTemp ∧ n ≠ .data ∧ n ≠ .sealed
  | .removeFile _ n => n ≠ .data ∧ n ≠ .sealed
  | .transfer _ _ _ => False
  | .unlock _ n => n ≠ .transferLock
  | _ => True

theorem FsOp.Harmless.permitted {c : Contract} {g : Memo} {o : FsOp (FileName κ) (Content κ)}
    (h : o.Harmless) : c.permits g o := by
  cases o with
  | rename d a n => exact ⟨h.1, h.2.1, fun hn => (h.2.2 hn).elim⟩
  | unlock d n => exact fun hn => (h hn).elim
  | transfer => exact h.elim
  | _ => exact h

theorem FsOp.Settles.harmless {o : FsOp (FileName κ) (Content κ)} (h : o.Settles) :
    o.Harmless := by
  cases o with
  | existsDir | createDir | syncDir | access | tryLock => trivial
  | _ => exact h.elim

theorem Memo.held_note {g : Memo} {o : FsOp (FileName κ) (Content κ)} {d : Dir} (x : o.Ans)
    (ho : o.Harmless) (h : g.held d) : (g.note o x).held d := by
  cases o with
  | tryLock d n =>
    cases n with
    | transferLock =>
      cases x with
      | error => exact h
      | ok => exact .inr h
    | _ => exact h
  | unlock d n =>
    cases n with
    | transferLock => exact (ho rfl).elim
    | _ => exact h
  | existsFile d n => cases n <;> cases x <;> exact h
  | read d n =>
    cases n with
    | data =>
      rcases x with e | x
      · exact h
      · cases x <;> exact h
    | _ => exact h
  | createDir d => cases x <;> exact h
  | create d n v => cases n <;> cases v <;> cases x <;> exact h
  | rename d a n => cases n <;> exact h
  | _ => exact h

/-- Whatever it is answered, the program does what the contract permits, and ends holding the
locks of `D`. -/
abbrev Contract.Keeps (c : Contract) (D : Dir → Prop) (g : Memo) (p : Prog (LocalSig κ) α) : Prop :=
  p.Careful c.permits Memo.note (fun g _ => ∀ d, D d → g.held d) g

namespace Contract.Keeps

variable {c : Contract} {D : Dir → Prop} {g : Memo} {d : Dir} {b : Bytes}

theorem harmless {p : Prog (LocalSig κ) α} (h : p.Within FsOp.Harmless) (hD : ∀ d, D d → g.held d) :
    c.Keeps D g p := by
  refine .of_within (I := fun g => ∀ d, D d → g.held d) ?_ ?_ h hD fun _ _ hg => hg
  · exact fun _ _ ho _ => ho.permitted
  · exact fun _ _ x ho hg d hd => Memo.held_note x ho (hg d hd)

theorem answering {p : Prog (LocalSig κ) α} {f : α → β} (h : c.Keeps (fun _ => False) g p) :
    c.Keeps (fun _ => False) g (p >>= fun a => .ret (f a)) :=
  .bind (h.mono fun _ _ _ => nofun)

theorem check {r : HsmResult α} {f : α → Io κ β} (hD : ∀ d, D d → g.held d)
    (h : ∀ a, r = .ok a → c.Keeps D g (f a).run) : c.Keeps D g ((liftM r >>= f : Io κ β)).run := by
  refine .run_bind ?_
  cases r with
  | error e => exact hD
  | ok a => exact h a rfl

theorem guard {P : Prop} [Decidable P] {e : HsmError} {k : β → Io κ α} {p : Io κ α}
    (hD : ∀ d, D d → g.held d) (h : ¬ P → c.Keeps D g p.run) :
    c.Keeps D g (if P then throw e >>= k else p).run := by
  split
  · exact hD
  · exact h ‹_›

theorem after {p : Io κ α} {f : α → Io κ β} (h : p.run.Within FsOp.Harmless)
    (hD : ∀ d, D d → g.held d)
    (hf : ∀ g, (∀ d, D d → g.held d) → ∀ a, c.Keeps D g (f a).run) : c.Keeps D g (p >>= f).run := by
  refine .run_bind (.mono (harmless h hD) fun g r hg => ?_)
  cases r with
  | error e => exact hg
  | ok a => exact hf g hg a

theorem locked {p : Io κ α} (hD : ∀ d', D d' → d' ≠ d ∧ g.held d')
    (h : c.Keeps (fun d' => d' = d ∨ D d') (g.locking d) p.run) :
    c.Keeps D g (withTransferLock d p).run := by
  have now : ∀ d', D d' → g.held d' := fun d' hd => (hD d' hd).2
  refine .run_bind ⟨trivial, fun x => ?_⟩
  rcases x with e | ⟨⟩
  · exact now
  refine .run_bind (p := tryLock d _ _) ⟨trivial, fun x => ?_⟩
  rcases x with e | ⟨⟩
  · exact now
  refine .bind (h.mono fun g' r hg => ⟨fun _ => hg d (.inl rfl), fun _ d' hd => ?_⟩)
  exact ⟨(hD d' hd).1, hg d' (.inr hd)⟩

theorem digestFile [Crates] {f : Nat × ContentDigest → Io κ α} (hD : ∀ d, D d → g.held d)
    (h : ∀ b, c.Keeps D (g.reading d b) (f (b.length, digestOf b)).run) :
    c.Keeps D g (digestFile d >>= f).run := by
  refine .run_bind (.run_bind ⟨trivial, fun x => ?_⟩)
  rcases x with e | x
  · exact hD
  · cases x with
    | bytes b => exact h b
    | _ => exact hD

end Contract.Keeps

/-! ## Helpers -/

section

variable {c : Contract} {D : Dir → Prop} {g : Memo} {d : Dir} {n : FileName κ} {v : Content κ}
  {b : Bytes}

theorem harmless_writeJson (hd : n ≠ .data) (hs : n ≠ .sealed) :
    (writeJson d n v).run.Within FsOp.Harmless := by
  refine Prog.within_bind (within_ask.mpr trivial) fun u => ?_
  refine Prog.within_bind (within_io.mpr nofun) fun _ => ?_
  refine Prog.within_bind (within_io.mpr trivial) fun _ => ?_
  refine Prog.within_bind (within_io.mpr ⟨trivial, hd, hs⟩) fun _ => ?_
  exact within_mapErr (within_io.mpr trivial)

theorem harmless_newLayout : (newLayout d : Io κ String).run.Within FsOp.Harmless :=
  Prog.within_bind (within_ask.mpr trivial) fun _ =>
    Prog.within_bind (within_io.mpr trivial) fun _ =>
      Prog.within_bind (within_io.mpr trivial) fun _ => trivial

theorem harmless_publishReceipt (hs : n ≠ .sealed) :
    (publishReceipt d n v).run.Within FsOp.Harmless := by
  refine Prog.within_bind (within_ask.mpr trivial) fun u => ?_
  refine Prog.within_bind (within_io.mpr nofun) fun _ => ?_
  refine Prog.within_bind (within_io.mpr trivial) fun _ => ?_
  refine Prog.within_bind (within_io.mpr hs) fun _ => ?_
  refine Prog.within_bind (within_mapErr (within_io.mpr trivial)) fun _ => ?_
  exact ⟨⟨nofun, nofun⟩, fun _ => trivial⟩

theorem Contract.Keeps.seal {f : Unit → Io κ α} (hD : ∀ d, D d → g.held d) (hg : c.Grip g d)
    (hb : g.seen d b) (hv : c.verified d b)
    (hf : ∀ g, (∀ d, D d → g.held d) → c.Keeps D g (f ()).run) :
    c.Keeps D g (writeJson d .sealed v >>= f).run := by
  refine .run_bind (.run_bind ⟨trivial, fun u => ?_⟩)
  refine .run_bind ⟨nofun, fun x => ?_⟩
  rcases x with e | ⟨⟩
  · exact hD
  refine .run_bind ⟨trivial, fun x => ?_⟩
  rcases x with e | ⟨⟩
  · exact hD
  refine .run_bind ⟨⟨trivial, nofun, fun _ => ⟨hg, b, hb, hv⟩⟩, fun x => ?_⟩
  rcases x with e | ⟨⟩
  · exact hD
  refine .mono (p := (mapErr _ (syncDir d)).run)
    (Contract.Keeps.harmless (within_mapErr (within_io.mpr trivial)) hD) fun g r hg => ?_
  cases r with
  | error e => exact hg
  | ok => exact hf g hg

end

/-! ## Copies -/

open Contract

section

variable {c : Contract} {D : Dir → Prop} {g : Memo}

theorem LocalDataMover.keeps_copy [Crates] {ctx : OperationContext}
    {source destination : DataEndpoint}
    (fills : ∀ e, decodeEndpoint destination = .ok e → c.fills e.root) :
    c.Keeps (fun _ => False) g (LocalDataMover.copy ctx source destination : Io κ _).run := by
  refine .check nofun fun _ _ => .check nofun fun src _ => .check nofun fun dst hd => ?_
  refine .guard nofun fun hn => .locked nofun (.locked ?_ ?_)
  · rintro d (rfl | hf)
    · exact ⟨hn, .inl rfl⟩
    · exact hf.elim
  generalize hg : (g.locking src.root).locking dst.root = g₀
  have hh : ∀ d, (d = dst.root ∨ d = src.root ∨ False) → g₀.held d := by
    subst hg
    rintro d (rfl | rfl | hf)
    · exact .inl rfl
    · exact .inr (.inl rfl)
    · exact hf.elim
  have hs : ∀ b, ¬ g₀.seen dst.root b := by
    subst hg
    rintro b ⟨hn, -⟩
    exact hn rfl
  refine .run_bind ⟨trivial, fun x => ?_⟩
  cases x with
  | true => exact hh
  | false =>
    refine .run_bind ⟨trivial, fun x => ?_⟩
    rcases x with e | ⟨⟩
    · exact hh
    refine .run_bind ⟨trivial, fun x => ?_⟩
    rcases x with e | ⟨⟩
    · exact hh
    refine .run_bind ⟨⟨rfl, fills dst hd, hh _ (.inl rfl), .inl rfl, hs⟩, fun x => ?_⟩
    rcases x with e | ⟨⟩
    · exact hh
    exact Keeps.digestFile hh fun b => hh

end

/-! ## Local storage -/

namespace LocalStorage

variable {c : Contract} {D : Dir → Prop} {g : Memo} {root : Dir} {ctx : OperationContext}
  {st : State κ}

theorem harmless_prepareArchiveEffect [Crates] {data : DataKey} :
    (prepareArchiveEffect root ctx data st).run.Within FsOp.Harmless := by
  refine Prog.within_bind trivial fun _ => Prog.within_bind trivial fun _ => Prog.within_guard ?_
  exact Prog.within_bind (within_ask.mpr trivial) fun _ => trivial

theorem harmless_prepareRecallEffect [Crates] {expected : EntityState} {anchor : ArchiveReceipt} :
    (prepareRecallEffect root ctx expected anchor st).run.Within FsOp.Harmless :=
  Prog.within_bind trivial fun _ => Prog.within_bind harmless_newLayout fun _ => trivial

theorem keeps_commitArchiveEffect [Crates] {view : DataView} {receipt : ArchiveReceipt} :
    c.Keeps (fun _ => False) g (commitArchiveEffect ctx view receipt st).run := by
  refine .check nofun fun _ _ => .guard nofun fun _ => .check nofun fun source _ => ?_
  refine .locked nofun (.harmless trivial ?_)
  rintro d (rfl | hf)
  · exact .inl rfl
  · exact hf.elim

theorem keeps_releaseEffect {expected : EntityState} :
    c.Keeps (fun _ => False) g (releaseEffect root ctx expected st).run := by
  refine .check nofun fun layout _ => .locked nofun (.harmless trivial ?_)
  rintro d (rfl | hf)
  · exact .inl rfl
  · exact hf.elim

/-- `commit_recall` seals its private layout when the payload is what the evidence and the
metadata say. -/
theorem keeps_commitRecallEffect [Crates] {target : RecallTarget} {evidence : TransferEvidence}
    (verified : ∀ b entity, evidence = ⟨b.length, digestOf b⟩ → st.entity target.data = .ok entity →
      entity.public.length = b.length → entity.public.digest = digestOf b →
      c.verified (layoutDir root target.layoutId) b) :
    c.Keeps (fun _ => False) g (commitRecallEffect root ctx target evidence st).run := by
  refine .check nofun fun owner _ => .guard nofun fun _ => .check nofun fun _ _ => ?_
  refine .guard nofun fun _ => .locked nofun ?_
  have hh : ∀ d, (d = layoutDir root target.layoutId ∨ False) →
      (g.locking (layoutDir root target.layoutId)).held d := by
    rintro d (rfl | hf)
    · exact .inl rfl
    · exact hf.elim
  refine .digestFile hh fun b => .check hh fun _ hs => ?_
  refine .run_bind ⟨trivial, fun x => ?_⟩
  rcases x with e | ⟨⟩
  · exact hh
  refine .run_bind ⟨trivial, fun x => ?_⟩
  rcases x with e | ⟨⟩
  · exact hh
  obtain ⟨entity, he, -, -, rfl, hl, hd⟩ := State.sealable_eq_ok.mp hs
  exact Keeps.seal hh (.inl (hh _ (.inl rfl))) (.inl ⟨rfl, rfl⟩)
    (verified b entity rfl he hl.symm hd.symm) fun g hg => Keeps.harmless trivial hg

theorem keeps_importLayout [Crates] {bytes : Bytes} (imports : c.imports)
    (verified : ∀ d, c.verified d bytes) :
    c.Keeps (fun _ => False) g (importLayout root bytes : Io κ _).run := by
  refine .run_bind (.run_bind ⟨trivial, fun u => .run_bind ⟨trivial, fun x => ?_⟩⟩)
  rcases x with e | ⟨⟩
  · exact nofun
  refine .run_bind ⟨trivial, fun x => ?_⟩
  rcases x with e | ⟨⟩
  · exact nofun
  refine .run_bind ⟨nofun, fun x => ?_⟩
  rcases x with e | ⟨⟩
  · exact nofun
  refine .run_bind ⟨trivial, fun x => ?_⟩
  rcases x with e | ⟨⟩
  · exact nofun
  refine .run_bind ⟨trivial, fun x => ?_⟩
  rcases x with e | ⟨⟩
  · exact nofun
  refine Keeps.digestFile nofun fun b => ?_
  exact Keeps.seal nofun (.inr ⟨imports, .inl rfl⟩) (.inr (.inl ⟨rfl, rfl⟩)) (verified _)
    fun g _ => Keeps.harmless trivial nofun

theorem keeps_sweep {layouts : List String} :
    c.Keeps (fun _ => False) g (sweep root layouts : Io κ Nat).run := by
  induction layouts generalizing g with
  | nil => exact nofun
  | cons layout rest ih =>
    have last : ∀ g, c.Keeps (fun _ => False) g
      (do return (← sweep root rest) + 1 : Io κ Nat).run := by
      refine fun g => .run_bind (ih.mono fun g r _ => ?_)
      cases r <;> exact nofun
    refine .run_bind ⟨trivial, fun b => ?_⟩
    cases b with
    | false => exact last _
    | true =>
      refine .run_bind
        (.mono (p := (withTransferLock _ (removeDirAll _)).run) (Keeps.locked (D := fun _ => False)
        nofun (.harmless (within_io.mpr trivial) ?_)) fun g r _ => ?_)
      · rintro d (rfl | hf)
        · exact .inl rfl
        · exact hf.elim
      · cases r with
        | error e => exact nofun
        | ok => exact last _

variable {self : LocalStorage κ}

theorem harmless_adopt {next : State κ} {answer : HsmResult α} :
    (self.adopt next answer).Within FsOp.Harmless := by
  refine .bind (.bind (harmless_writeJson nofun nofun) fun r => ?_) fun r => ?_
  · cases r <;> trivial
  · rcases r with ⟨e | a, t⟩ <;> trivial

theorem keeps_step [DecidableEq κ] [KeyHash κ] [Recorded α] {request : StepRequest}
    {effect : State κ → Io κ (α × State κ)}
    (h : c.Keeps (fun _ => False) g (effect self.state).run) :
    c.Keeps (fun _ => False) g (self.step ctx request effect) := by
  unfold step
  split
  · exact nofun
  · exact nofun
  · dsimp only
    split
    · exact nofun
    · refine .bind (h.mono fun g r _ => ?_)
      rcases r with e | ⟨a, next⟩
      · dsimp only
        split
        · exact nofun
        · exact Keeps.harmless harmless_adopt nofun
      · exact Keeps.harmless harmless_adopt nofun

theorem keeps_import [Crates] {entityId : String} {bytes : Bytes} (imports : c.imports)
    (verified : ∀ d, c.verified d bytes) :
    c.Keeps (fun _ => False) g (self.import entityId bytes) := by
  unfold «import»
  split
  · exact nofun
  · split
    · exact nofun
    · split
      · exact nofun
      · refine .bind ((keeps_importLayout imports verified).mono fun g r _ => ?_)
        rcases r with e | ⟨layout, length, digest⟩
        · exact nofun
        · exact Keeps.harmless harmless_adopt nofun

theorem keeps_collectGarbage : c.Keeps (fun _ => False) g self.collectGarbage := by
  unfold collectGarbage
  split
  · exact nofun
  · refine .bind (.run_bind (keeps_sweep.mono fun g r _ => ?_))
    rcases r with e | n
    · exact nofun
    · refine ⟨trivial, fun x => ?_⟩
      rcases x with e | ⟨⟩
      · exact nofun
      · exact Keeps.harmless harmless_adopt nofun

theorem harmless_open : (LocalStorage.open root : Io κ _).run.Within FsOp.Harmless := by
  refine Prog.within_bind (within_lockRoot.mono fun _ => FsOp.Settles.harmless) fun _ =>
    .bind ?_ fun r => ?_
  · refine Prog.within_bind (within_createDirAll.mono fun _ => FsOp.Settles.harmless) fun _ => ?_
    refine Prog.within_bind (within_io.mpr trivial) fun _ => Prog.within_bind ?_ fun st => ?_
    · refine Prog.within_bind (within_ask.mpr trivial) fun b => ?_
      cases b with
      | true =>
        refine Prog.within_bind (within_io.mpr trivial) fun c => ?_
        cases c <;> trivial
      | false =>
        refine Prog.within_bind (within_ask.mpr trivial) fun _ => ?_
        refine Prog.within_bind (within_ask.mpr trivial) fun _ => ?_
        exact Prog.within_bind (harmless_writeJson nofun nofun) fun _ => trivial
    · exact Prog.within_guard trivial
  · rcases r with e | self
    · exact ⟨nofun, fun _ => trivial⟩
    · trivial

end LocalStorage

/-! ## The local archive -/

namespace LocalArchive

variable [KeyHash κ] [Crates] {c : Contract} {D : Dir → Prop} {g : Memo} {self : LocalArchive}
  {archive : ArchiveKey} {ctx : OperationContext} {view : DataView} {target : ArchiveTarget}
  {evidence : TransferEvidence} {receipt : ArchiveReceipt} {payload : Dir}

theorem harmless_committed : (self.committed archive : Io κ _).run.Within FsOp.Harmless :=
  within_committed (fun _ _ => trivial) (fun _ _ => trivial) fun _ => trivial

theorem harmless_inspect : (self.inspect archive : Io κ _).run.Within FsOp.Harmless :=
  within_inspect (fun _ _ => trivial) (fun _ _ => trivial) fun _ => trivial

theorem harmless_prepare : (self.prepare ctx archive view : Io κ _).run.Within FsOp.Harmless := by
  refine Prog.within_bind trivial fun _ => Prog.within_bind harmless_committed fun x => ?_
  refine Prog.within_guard (Prog.within_bind (within_ask.mpr trivial) fun b => ?_)
  cases b with
  | true =>
    refine Prog.within_bind (within_io.mpr trivial) fun v => Prog.within_bind ?_ fun p => ?_
    · cases v <;> trivial
    · exact Prog.within_guard trivial
  | false =>
    refine Prog.within_bind harmless_newLayout fun layout => ?_
    exact Prog.within_bind (harmless_writeJson nofun nofun) fun _ => trivial

theorem harmless_openReceipt : (self.openReceipt receipt : Io κ _).run.Within FsOp.Harmless := by
  refine Prog.within_bind harmless_committed fun x => ?_
  cases x with
  | none => trivial
  | some value => exact Prog.within_guard trivial

/-- The payload of the target is what the view and the evidence say. -/
theorem keeps_sealAndPublish (hD : ∀ d, D d → g.held d) (hp : g.held payload)
    (verified : ∀ b, view.length = b.length → view.digest = digestOf b →
      evidence = ⟨b.length, digestOf b⟩ → c.verified payload b) :
    c.Keeps D g (self.sealAndPublish target view evidence payload : Io κ _).run := by
  refine .digestFile hD fun b => .guard hD fun hn => ?_
  simp only [not_or, not_not, ne_eq] at hn
  obtain ⟨hl, hd, hl', hd'⟩ := hn
  have hv : c.verified payload b := verified b hl.symm hd.symm (by cases evidence; simp_all)
  refine .run_bind ⟨trivial, fun x => ?_⟩
  rcases x with e | ⟨⟩
  · exact hD
  refine .run_bind ⟨trivial, fun x => ?_⟩
  rcases x with e | ⟨⟩
  · exact hD
  refine Keeps.seal hD (.inl hp) (.inl ⟨rfl, rfl⟩) hv fun g hD => ?_
  refine .run_bind ⟨trivial, fun u => Keeps.check hD fun path hr => ?_⟩
  obtain ⟨-, rfl⟩ := receiptPath_eq_ok.mp hr
  exact Keeps.harmless (Prog.within_bind (harmless_publishReceipt nofun) fun _ => trivial) hD

theorem keeps_commit (verified : ∀ b e, decodeEndpoint target.destination = .ok e →
      view.length = b.length → view.digest = digestOf b → evidence = ⟨b.length, digestOf b⟩ →
      c.verified e.root b) :
    c.Keeps (fun _ => False) g (self.commit ctx target view evidence : Io κ _).run := by
  refine .check nofun fun _ _ => .after (within_io.mpr trivial) nofun fun g _ v => ?_
  refine .after ?_ nofun fun g _ prior => .guard nofun fun _ => ?_
  · cases v <;> trivial
  refine .after harmless_committed nofun fun g _ x => ?_
  cases x with
  | some value =>
    refine .harmless ?_ nofun
    dsimp only
    split <;> trivial
  | none =>
    refine .check nofun fun e he =>
      .locked nofun (keeps_sealAndPublish ?_ (.inl rfl) fun b => verified b e he)
    rintro d (rfl | hf)
    · exact .inl rfl
    · exact hf.elim

theorem keeps_resumeCommit (verified : ∀ b e, decodeEndpoint target.destination = .ok e →
      view.length = b.length → view.digest = digestOf b → c.verified e.root b) :
    c.Keeps (fun _ => False) g (self.resumeCommit ctx target view : Io κ _).run := by
  refine .check nofun fun e _ => .run_bind ⟨trivial, fun b => ?_⟩
  cases b with
  | false => exact nofun
  | true =>
    refine .run_bind
      ((keeps_commit fun b e he hl hd _ => verified b e he hl hd).mono fun g r _ => ?_)
    cases r <;> exact nofun

omit [KeyHash κ] [Crates] in
theorem harmless_open {root : Dir} {id : String} :
    (LocalArchive.open root id : Io κ _).run.Within FsOp.Harmless := by
  refine Prog.within_bind (within_lockRoot.mono fun _ => FsOp.Settles.harmless) fun _ =>
    .bind ?_ fun r => ?_
  · have dirs : ∀ d, (createDirAll d : Io κ _).run.Within FsOp.Harmless :=
      fun _ => within_createDirAll.mono fun _ => FsOp.Settles.harmless
    have rest : (do createDirAll (objectsDir root); createDirAll (attemptsDir root); syncDir root
                    return ⟨root, id⟩ : Io κ LocalArchive).run.Within FsOp.Harmless :=
      Prog.within_bind (dirs _) fun _ => Prog.within_bind (dirs _) fun _ =>
        Prog.within_bind (within_io.mpr trivial) fun _ => trivial
    refine Prog.within_guard (Prog.within_bind (within_ask.mpr trivial) fun b => ?_)
    cases b with
    | true =>
      refine Prog.within_bind (within_io.mpr trivial) fun v => Prog.within_bind ?_ fun _ => ?_
      · cases v <;> trivial
      · exact Prog.within_guard rest
    | false => exact Prog.within_bind (harmless_writeJson nofun nofun) fun _ => rest
  · rcases r with e | self
    · exact ⟨nofun, fun _ => trivial⟩
    · trivial

end LocalArchive

end HsmRs
