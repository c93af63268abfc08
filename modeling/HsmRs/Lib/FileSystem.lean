import Mathlib.Data.List.Infix
import HsmRs.Lib.Program

/-! # A file system with crashes

Directories and files by path, each in a version that programs see and a version
that is safe on disk. An operation answers and changes the visible version;
syncing a directory makes its entries safe. Operations may fail after their
effect, a look at a path may fail, a crash may fall inside an operation, and a power
loss keeps for every entry either version.
-/

namespace HsmRs

/-- A directory by its absolute path, innermost component first. -/
abbrev Dir := List String

inductive ErrorKind | notFound | alreadyExists | wouldBlock | other
  deriving DecidableEq, Repr

structure IoError where
  kind : ErrorKind
  text : String
  deriving DecidableEq, Repr

structure File (β : Type) where
  content : β
  synced : Bool
  deriving DecidableEq

/-- The visible tree, its safe version, the advisory locks and the UUIDs handed out. -/
structure Disk (ν β : Type) where
  dir : Dir → Bool
  file : Dir → ν → Option (File β)
  safeDir : Dir → Bool
  safeFile : Dir → ν → Option (File β)
  locked : Dir → ν → Bool
  issued : String → Bool

inductive FsOp (ν β : Type) where
  | existsDir (d : Dir)
  | existsFile (d : Dir) (n : ν)
  | read (d : Dir) (n : ν)
  | createDir (d : Dir)
  | create (d : Dir) (n : ν) (c : β)
  | syncFile (d : Dir) (n : ν)
  | syncDir (d : Dir)
  | rename (d : Dir) (a b : ν)
  | hardLink (d : Dir) (a b : ν)
  | removeFile (d : Dir) (n : ν)
  | removeDirAll (d : Dir)
  | access (d : Dir)
  | tryLock (d : Dir) (n : ν)
  | unlock (d : Dir) (n : ν)
  | uuid
  | transfer (src dst : Dir) (n : ν)

variable {ν β : Type}

namespace FsOp

abbrev Ans : FsOp ν β → Type
  | existsDir _ | existsFile _ _ => Bool
  | read _ _ => Except IoError β
  | unlock _ _ => Unit
  | uuid => String
  | _ => Except IoError Unit

/-- How an operation reports an I/O error, where it can report one. `exists` cannot. -/
def failure (e : IoError) : (o : FsOp ν β) → Option (Ans o)
  | existsDir _ | existsFile _ _ | unlock _ _ | uuid => none
  | read _ _ => some (.error e)
  | createDir _ | create _ _ _ | syncFile _ _ | syncDir _ | rename _ _ _ | hardLink _ _ _
  | removeFile _ _ | removeDirAll _ | access _ | tryLock _ _ | transfer _ _ _ =>
      some (.error e)

/-- What `exists` answers of a path that it fails to look at. -/
def unseen : (o : FsOp ν β) → Option (Ans o)
  | existsDir _ | existsFile _ _ => some false
  | _ => none

end FsOp

abbrev fsSig (ν β : Type) : Sig := ⟨FsOp ν β, FsOp.Ans⟩

namespace IoError

def notFound : IoError := ⟨.notFound, "No such file or directory (os error 2)"⟩
def alreadyExists : IoError := ⟨.alreadyExists, "File exists (os error 17)"⟩
def wouldBlock : IoError := ⟨.wouldBlock, "Resource temporarily unavailable (os error 11)"⟩

end IoError

namespace Disk

/-- The file a path names; nothing is found in a directory that does not exist. -/
def lookup (s : Disk ν β) (d : Dir) (n : ν) : Option (File β) :=
  if s.dir d then s.file d n else none

variable [DecidableEq ν]

def put (s : Disk ν β) (d : Dir) (n : ν) (f : Option (File β)) : Disk ν β :=
  { s with file := fun d' n' => if d' = d ∧ n' = n then f else s.file d' n' }

omit [DecidableEq ν] in
def mkdir (s : Disk ν β) (d : Dir) : Disk ν β :=
  { s with
    dir := fun d' => if d' = d then true else s.dir d'
    file := fun d' n => if d' = d then none else s.file d' n }

omit [DecidableEq ν] in
def flush (s : Disk ν β) (d : Dir) : Disk ν β :=
  { s with
    safeDir := fun d' => if d'.tail = d ∧ d' ≠ [] then s.dir d' else s.safeDir d'
    safeFile := fun d' n => if d' = d then s.lookup d n else s.safeFile d' n }

omit [DecidableEq ν] in
def prune (s : Disk ν β) (d : Dir) : Disk ν β :=
  { s with dir := fun d' => if d <:+ d' then false else s.dir d' }

def setLock (s : Disk ν β) (d : Dir) (n : ν) (b : Bool) : Disk ν β :=
  { s with locked := fun d' n' => if d' = d ∧ n' = n then b else s.locked d' n' }

omit [DecidableEq ν] in
def issue (s : Disk ν β) (u : String) : Disk ν β :=
  { s with issued := fun v => if v = u then true else s.issued v }

/-- The answer and the effect of an operation that goes well, or that is refused for a
reason the disk shows; `u` is the next UUID. -/
def respond (s : Disk ν β) (u : String) : (o : FsOp ν β) → o.Ans × Disk ν β
  | .existsDir d => (s.dir d, s)
  | .existsFile d n => ((s.lookup d n).isSome, s)
  | .read d n => (match s.lookup d n with
      | none => .error .notFound
      | some f => .ok f.content, s)
  | .createDir d =>
      if s.dir d then (.error .alreadyExists, s)
      else if s.dir d.tail then (.ok (), s.mkdir d) else (.error .notFound, s)
  | .create d n c =>
      if s.dir d then match s.lookup d n with
        | none => (.ok (), s.put d n (some ⟨c, false⟩))
        | some _ => (.error .alreadyExists, s)
      else (.error .notFound, s)
  | .syncFile d n => match s.lookup d n with
      | none => (.error .notFound, s)
      | some f => (.ok (), s.put d n (some { f with synced := true }))
  | .syncDir d => if s.dir d then (.ok (), s.flush d) else (.error .notFound, s)
  | .rename d a b => match s.lookup d a with
      | none => (.error .notFound, s)
      | some f => (.ok (), (s.put d a none).put d b (some f))
  | .hardLink d a b => match s.lookup d a, s.lookup d b with
      | none, _ => (.error .notFound, s)
      | some _, some _ => (.error .alreadyExists, s)
      | some f, none => (.ok (), s.put d b (some f))
  | .removeFile d n => match s.lookup d n with
      | none => (.error .notFound, s)
      | some _ => (.ok (), s.put d n none)
  | .removeDirAll d => if s.dir d then (.ok (), s.prune d) else (.error .notFound, s)
  | .access d => (if s.dir d then .ok () else .error .notFound, s)
  | .tryLock d n =>
      if s.locked d n then (.error .wouldBlock, s) else (.ok (), s.setLock d n true)
  | .unlock d n => ((), s.setLock d n false)
  | .uuid => (u, s.issue u)
  | .transfer src dst n => match s.lookup src n with
      | none => (.error .notFound, s)
      | some f =>
          if s.dir dst then (.ok (), s.put dst n (some ⟨f.content, false⟩))
          else (.error .notFound, s)

omit [DecidableEq ν] in
/-- Some of what lies at or below `d` is gone, entries before their directories, and nothing
else changed. -/
structure Pruned (d : Dir) (s s' : Disk ν β) : Prop where
  outside : ∀ d', ¬ d <:+ d' → s'.dir d' = s.dir d' ∧ s'.file d' = s.file d'
  inside : ∀ d', s'.dir d' = true → s.dir d' = true
  parent : ∀ x p, s'.dir (x :: p) = true → s.dir p = true → s'.dir p = true
  file : ∀ d' n, s'.file d' n = s.file d' n ∨ s'.file d' n = none
  safeDir : s'.safeDir = s.safeDir
  safeFile : s'.safeFile = s.safeFile
  locked : s'.locked = s.locked
  issued : s'.issued = s.issued

omit [DecidableEq ν] in
/-- Some entries of `d` have become safe, nothing else changed. -/
structure Flushed (d : Dir) (s s' : Disk ν β) : Prop where
  dir : s'.dir = s.dir
  file : s'.file = s.file
  safeDir : ∀ d', s'.safeDir d' = s.safeDir d' ∨
    (d'.tail = d ∧ s'.safeDir d' = s.dir d')
  safeFile : ∀ d' n, s'.safeFile d' n = s.safeFile d' n ∨
    (d' = d ∧ s'.safeFile d' n = s.lookup d' n)
  locked : s'.locked = s.locked
  issued : s'.issued = s.issued

/-- What a crash or an error in the middle of an operation can leave. -/
inductive Tear (s : Disk ν β) : FsOp ν β → Disk ν β → Prop where
  | before (o : FsOp ν β) : Tear s o s
  | after (o : FsOp ν β) (u : String) : Tear s o (s.respond u o).2
  | create {d : Dir} {n : ν} {c c' : β} : s.dir d = true → s.lookup d n = none →
      Tear s (.create d n c) (s.put d n (some ⟨c', false⟩))
  | syncDir {d : Dir} {s' : Disk ν β} : Flushed d s s' → Tear s (.syncDir d) s'
  | removeDirAll {d : Dir} {s' : Disk ν β} : Pruned d s s' → Tear s (.removeDirAll d) s'
  | transfer {src dst : Dir} {n : ν} {c : β} : s.dir dst = true →
      Tear s (.transfer src dst n) (s.put dst n (some ⟨c, false⟩))

end Disk

/-- What the environment of a run guarantees: which UUIDs it hands out, whether
operations can fail, and whether a finished transfer has copied exactly. -/
structure Policy (ν β : Type) where
  uuid : Disk ν β → String → Prop
  faults : Bool
  exact : Bool

/-- A policy, and whether a look at a path can fail. -/
structure Env (ν β : Type) extends Policy ν β where
  statFaults : Bool

/-- Every look at a path tells what is there. -/
@[coe] abbrev Policy.sighted (π : Policy ν β) : Env ν β := ⟨π, false⟩

instance : Coe (Policy ν β) (Env ν β) := ⟨Policy.sighted⟩

variable [DecidableEq ν]

inductive FsStep (π : Env ν β) (s : Disk ν β) :
    (o : FsOp ν β) → o.Ans → Disk ν β → Prop where
  | respond (o : FsOp ν β) (u : String) : (o = .uuid → π.uuid s u) →
      FsStep π s o (s.respond u o).1 (s.respond u o).2
  | fault {o : FsOp ν β} {e : IoError} {x : o.Ans} {s' : Disk ν β} : π.faults = true →
      e.kind = .other → o.failure e = some x → s.Tear o s' → FsStep π s o x s'
  | inexact {src dst : Dir} {n : ν} {c : β} : π.exact = false → s.dir dst = true →
      FsStep π s (.transfer src dst n) (.ok ()) (s.put dst n (some ⟨c, false⟩))
  | unseen {o : FsOp ν β} {x : o.Ans} : π.statFaults = true → o.unseen = some x → FsStep π s o x s

/-- What happens while all looks succeed can happen where they can fail. -/
theorem FsStep.dim {π : Policy ν β} {s s' : Disk ν β} {o : FsOp ν β} {x : o.Ans}
    (h : FsStep π s o x s') : FsStep (Env.mk π true) s o x s' := by
  cases h with
  | respond _ u hu => exact .respond o u hu
  | fault hf hk he ht => exact .fault hf hk he ht
  | inexact hi hd => exact .inexact hi hd
  | unseen hf => cases hf

def Env.machine (π : Env ν β) : Machine (fsSig ν β) (Disk ν β) where
  step := FsStep π
  tear := Disk.Tear

/-- The machine on which looks at paths never fail. -/
abbrev fsMachine (π : Policy ν β) : Machine (fsSig ν β) (Disk ν β) := π.sighted.machine

end HsmRs
