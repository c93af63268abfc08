import HsmRs.Archive.Durability
import HsmRs.Local.Moving
import HsmRs.Storage.World

/-! # The engine over its adapters

One process with a local storage, a local archive and any number of engine calls in
flight. The calls of the adapters are atomic to each other, and the process may die
at any moment, in the middle of an adapter call too. Seen from the archive and seen
from the storage, this is one of their own runs.
-/

namespace HsmRs

/-- Two roots of which neither lies in the other. -/
structure Roots where
  storage : Dir
  archive : Dir
  apart : ¬ storage <:+ archive
  apart' : ¬ archive <:+ storage

inductive EngineCall
  | archive (ctx : OperationContext) (data : DataKey) (key : ArchiveKey)
  | release (ctx : OperationContext) (expected : EntityState)
  | «recall» (ctx : OperationContext) (expected : EntityState) (key : ArchiveKey)

def EngineCall.workflow : EngineCall → Workflow EntityState
  | archive ctx data key => HsmEngine.archive ctx data key
  | release ctx expected => HsmEngine.release ctx expected
  | «recall» ctx expected key => HsmEngine.recall ctx expected key

/-- What a process holds: the open handles and what is left of the engine calls in flight. -/
structure Live (κ : Type) where
  storage : Option (LocalStorage κ)
  archive : Option LocalArchive
  engines : List (Prog engineSig (HsmResult EntityState))

def Live.dead {κ : Type} : Live κ := ⟨none, none, []⟩

/-- The imports that have been begun and those that have answered well. -/
structure Imports where
  begun : List (String × Bytes)
  done : List (String × Bytes)

structure System (κ : Type) where
  disk : Disk (FileName κ) (Content κ)
  live : Live κ
  imports : Imports

section

variable {κ : Type} [DecidableEq κ] [KeyHash κ] [Crates]

/-- What the process can do next: the imports it begins, and a program that leads to what the
process holds then and the imports that are done. -/
inductive Live.Acts (roots : Roots) (opens : Prop) : Live κ → List (String × Bytes) →
    Prog (LocalSig κ) (Live κ × List (String × Bytes)) → Prop where
  | imports {l : Live κ} {self : LocalStorage κ} (id : String) (bytes : Bytes) :
      l.storage = some self → Acts roots opens l [(id, bytes)] (self.import id bytes >>= fun x =>
        .ret ({ l with storage := some x.2 }, match x.1 with
          | .ok _ => [(id, bytes)]
          | .error _ => []))
  | collects {l : Live κ} {self : LocalStorage κ} : l.storage = some self →
      Acts roots opens l [] (self.collectGarbage >>= fun x =>
        .ret ({ l with storage := some x.2 }, []))
  | begins {l : Live κ} (c : EngineCall) : l.storage.isSome → l.archive.isSome →
      Acts roots opens l [] (.ret ({ l with engines := c.workflow.run :: l.engines }, []))
  | calls {self : LocalStorage κ} {archive : LocalArchive} {c : Call}
      {k : c.Ans → Prog engineSig (HsmResult EntityState)}
      {before after : List (Prog engineSig (HsmResult EntityState))} :
      Acts roots opens ⟨some self, some archive, before ++ .op c k :: after⟩ []
        (Stores.answer c ⟨self, archive⟩ >>= fun x =>
          .ret (⟨some x.2.storage, some x.2.archive, before ++ k x.1 :: after⟩, []))
  | opensStorage {l : Live κ} : l.storage = none →
      Acts roots opens l [] ((LocalStorage.open roots.storage).run >>= fun x =>
        .ret ({ l with storage := x.toOption }, []))
  | opensArchive {l : Live κ} (id : String) : opens → l.archive = none →
      Acts roots opens l [] ((LocalArchive.open roots.archive id).run >>= fun x =>
        .ret ({ l with archive := x.toOption }, []))

/-- The process acts, or it dies in the middle of it. -/
inductive System.Step (π : Policy (FileName κ) (Content κ)) (env : Setting κ) (roots : Roots) :
    System κ → System κ → Prop where
  | acts {s s' : Disk (FileName κ) (Content κ)} {l l' : Live κ} {g : Imports}
      {begins done : List (String × Bytes)}
      {p : Prog (LocalSig κ) (Live κ × List (String × Bytes))} :
      Live.Acts roots (env.opens s) l begins p → Runs (fsMachine π) p s (l', done) s' →
      Step π env roots ⟨s, l, g⟩ ⟨s', l', ⟨begins ++ g.begun, done ++ g.done⟩⟩
  | dies {s s' s'' : Disk (FileName κ) (Content κ)} {l : Live κ} {g : Imports}
      {begins : List (String × Bytes)} {p : Prog (LocalSig κ) (Live κ × List (String × Bytes))} :
      Live.Acts roots (env.opens s) l begins p → Cuts (fsMachine π) p s s' → env.crash s' s'' →
      Step π env roots ⟨s, l, g⟩ ⟨s'', .dead, ⟨begins ++ g.begun, g.done⟩⟩

abbrev System.Steps (π : Policy (FileName κ) (Content κ)) (env : Setting κ) (roots : Roots) :
    System κ → System κ → Prop := Relation.ReflTransGen (System.Step π env roots)

/-- A system reached from roots without a store and without an archive. -/
def System.Reachable (π : Policy (FileName κ) (Content κ)) (env : Setting κ) (roots : Roots)
    (sys : System κ) : Prop :=
  ∃ s, Bare roots.archive s ∧ (s.lookup roots.storage .state = none ∧
    s.safeFile roots.storage .state = none) ∧
    System.Steps π env roots ⟨s, .dead, ⟨[], []⟩⟩ sys

end

/-! ## Where the adapters write -/

variable {κ : Type} {s s' : Disk (FileName κ) (Content κ)} {root : Dir}

def Off (root : Dir) (d : Dir) (n : FileName κ) : Prop := Named d n ∧ ¬ root <:+ d

theorem Roots.off {roots : Roots} {d : Dir} (h : roots.archive <:+ d) : ¬ roots.storage <:+ d := by
  intro h'
  rcases List.suffix_or_suffix_of_suffix h h' with h | h
  · exact roots.apart' h
  · exact roots.apart h

theorem Roots.off_path {roots : Roots} {d : Dir} (h : d <:+ roots.archive) :
    ¬ roots.storage <:+ d := fun h' => roots.apart (h'.trans h)

theorem Beside.of_off {roots : Roots} (hf : Frame (Off roots.storage) s s')
    (ht : s.Tree → s'.Tree) :
    Beside roots.archive s s' :=
  ⟨hf.mono fun _ _ h => ⟨h.1, Roots.off h.2.1⟩,
    fun _ hp hg => hg.frame hf (n := .data) ⟨fun h => h, Roots.off_path hp⟩, ht⟩

theorem suffix_layoutDir {layout : String} : root <:+ layoutDir root layout :=
  (List.suffix_cons _ root).trans (List.suffix_cons _ _)

namespace LocalStorage

theorem off_root {n : FileName κ} : ¬ Off root root n := fun h => h.2 (List.suffix_refl _)

theorem off_named (d : Dir) (n : FileName κ) (h : Off root d n) : Named d n := h.1

/-- None of the files is the metadata of the storage or lies in one of its layouts. -/
structure Distant (root : Dir) (K : Dir → FileName κ → Prop) : Prop where
  named : ∀ d n, K d n → Named d n
  state : ¬ K root .state
  layouts : ∀ layout d n, K d n → ¬ layoutDir root layout <:+ d

theorem Distant.layout {K : Dir → FileName κ → Prop} (h : Distant root K) {layout : String}
    {n : FileName κ} : ¬ K (layoutDir root layout) n := fun hk =>
  h.layouts layout _ n hk (List.suffix_refl _)

theorem distant_off : Distant root (Off root : Dir → FileName κ → Prop) :=
  ⟨off_named, off_root, fun _ _ _ h hl => h.2 (suffix_layoutDir.trans hl)⟩

section

variable {K : Dir → FileName κ → Prop} {self : LocalStorage κ}

theorem spares_adopt {α : Type} {next : State κ} {answer : HsmResult α}
    (named : ∀ d n, K d n → Named d n) (state : ¬ K self.root .state) :
    (self.adopt next answer).Within (FsOp.Spares K) := by
  refine Prog.Within.bind (Prog.Within.bind (spares_writeJson named state) fun r => ?_)
    fun x => ?_
  · rcases r with e | ⟨⟩ <;> trivial
  · obtain ⟨e | ⟨⟩, self'⟩ := x <;> trivial

theorem spares_step [DecidableEq κ] [KeyHash κ] {α : Type} [Recorded α] {ctx : OperationContext}
    {request : StepRequest} {effect : State κ → Io κ (α × State κ)}
    (named : ∀ d n, K d n → Named d n) (state : ¬ K self.root .state)
    (h : (effect self.state).run.Within (FsOp.Spares K)) :
    (self.step ctx request effect).Within (FsOp.Spares K) := by
  unfold LocalStorage.step
  cases qualify ctx with
  | error e => trivial
  | ok =>
    cases self.healthy with
    | error e => trivial
    | ok =>
      dsimp only
      split
      · trivial
      · refine h.bind fun r => ?_
        rcases r with e | ⟨value, next⟩
        · dsimp only
          split
          · trivial
          · exact spares_adopt named state
        · exact spares_adopt named state

theorem spares_import [Crates] {id : String} {bytes : Bytes} (hk : Distant self.root K) :
    (self.import id bytes).Within (FsOp.Spares K) := by
  unfold LocalStorage.import
  split
  · trivial
  · split
    · trivial
    · split
      · trivial
      · refine Prog.Within.bind (spares_importLayout hk.named fun _ _ => hk.layout) fun r => ?_
        rcases r with e | ⟨layout, length, digest⟩
        · trivial
        · exact spares_adopt hk.named hk.state

theorem spares_collectGarbage (hk : Distant self.root K) :
    (self.collectGarbage).Within (FsOp.Spares K) := by
  unfold LocalStorage.collectGarbage
  split
  · trivial
  · refine Prog.Within.bind (Prog.within_bind (spares_sweep fun layout _ => hk.layouts layout)
      fun _ => Prog.within_bind (within_io.mpr trivial) fun _ => trivial) fun r => ?_
    rcases r with e | n
    · trivial
    · exact spares_adopt hk.named hk.state

theorem spares_storageCall [DecidableEq κ] [KeyHash κ] [Crates] {archive : LocalArchive}
    {c : StorageCall} (named : ∀ d n, K d n → Named d n) (state : ¬ K self.root .state)
    (layouts : ∀ ctx target evidence, c = .commitRecall ctx target evidence →
      ¬ K (layoutDir self.root target.layoutId) .sealed) :
    ((⟨self, archive⟩ : Stores κ).storageCall c).Within (FsOp.Spares K) := by
  cases c with
  | completed => trivial
  | inspect => trivial
  | prepareArchive =>
    exact Prog.Within.bind (spares_step named state spares_prepareArchiveEffect) fun _ => trivial
  | commitArchive =>
    exact Prog.Within.bind (spares_step named state spares_commitArchiveEffect) fun _ => trivial
  | release =>
    exact Prog.Within.bind (spares_step named state spares_releaseEffect) fun _ => trivial
  | prepareRecall =>
    exact Prog.Within.bind (spares_step named state spares_prepareRecallEffect) fun _ => trivial
  | commitRecall =>
    exact Prog.Within.bind (spares_step named state (spares_commitRecallEffect named
      (layouts _ _ _ rfl))) fun _ => trivial

theorem Distant.storageCall [DecidableEq κ] [KeyHash κ] [Crates] {archive : LocalArchive}
    {c : StorageCall} (hk : Distant self.root K) :
    ((⟨self, archive⟩ : Stores κ).storageCall c).Within (FsOp.Spares K) :=
  spares_storageCall hk.named hk.state fun _ _ _ _ => hk.layout

end

theorem spares_readState {K : Dir → FileName κ → Prop} (named : ∀ d n, K d n → Named d n)
    (state : ¬ K root .state) :
    (LocalStorage.readState root : Io κ _).run.Within (FsOp.Spares K) := by
  refine Prog.within_bind (within_ask.mpr trivial) fun b => ?_
  cases b with
  | true =>
    refine Prog.within_bind (within_io.mpr trivial) fun c => ?_
    cases c <;> trivial
  | false =>
    refine Prog.within_bind (within_ask.mpr trivial) fun _ => ?_
    refine Prog.within_bind (within_ask.mpr trivial) fun _ => ?_
    exact Prog.within_bind (spares_writeJson named state) fun _ => trivial

theorem spares_open {K : Dir → FileName κ → Prop} (named : ∀ d n, K d n → Named d n)
    (state : ¬ K root .state) : (LocalStorage.open root : Io κ _).run.Within (FsOp.Spares K) := by
  refine Prog.within_bind spares_lockRoot fun _ => Prog.Within.bind ?_ fun r => ?_
  · refine Prog.within_bind spares_createDirAll fun _ => ?_
    refine Prog.within_bind (within_io.mpr trivial) fun _ =>
      Prog.within_bind (spares_readState named state) fun st => ?_
    exact Prog.within_guard trivial
  · rcases r with e | self
    · exact ⟨trivial, fun _ => trivial⟩
    · trivial

end LocalStorage

end HsmRs
