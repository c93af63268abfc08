import HsmRs.Archive.World
import HsmRs.Storage.Play

/-! # Playing calls on an archive

A list of calls executed one after the other on an open archive, each with the names
it is given and with faults where `bad` marks them. What is played is a run of the
vault, in every setting that opens roots as they are.
-/

namespace HsmRs

section

variable {κ : Type} [DecidableEq κ] [KeyHash κ] [Crates] {root : Dir} {id : String}
  {π : Policy (FileName κ) (Content κ)} {env : Setting κ} {s : Disk (FileName κ) (Content κ)}
  {v v' : Vault κ}

namespace Vault

def start (root : Dir) (id : String) (names : List String) (s : Disk (FileName κ) (Content κ)) :
    Option (Vault κ) :=
  match (LocalArchive.open root id : Io κ _).run.exec (fun _ => false) 100 names s with
  | (some (.ok archive), s') => some ⟨s', some archive, []⟩
  | _ => none

def play (bad : Nat → Bool) : List (BackendCall × List String) → Vault κ → Option (Vault κ)
  | [], v => some v
  | (c, names) :: rest, ⟨s, some archive, begun⟩ =>
      match (Stores.backendCall archive c).exec bad 100 names s with
      | (some _, s') => play bad rest ⟨s', some archive, c :: begun⟩
      | (none, _) => none
  | _ :: _, ⟨_, none, _⟩ => none

theorem start_step (hπ : π.Generous) (ho : env.opens s) {names : List String}
    (h : start root id names s = some v) : Step π env root ⟨s, none, []⟩ v := by
  unfold start at h
  have sound := @Prog.exec_runs _ _ _ _ π _ (LocalArchive.open root id : Io κ _).run 100 names s hπ
    (.inr fun _ => rfl)
  split at h
  · rename_i archive s' he
    rw [he] at sound
    cases h
    exact .opened ho (sound rfl)
  · cases h

theorem play_steps (hπ : π.Generous) {bad : Nat → Bool}
    (hb : π.faults = true ∨ ∀ n, bad n = false) {script : List (BackendCall × List String)}
    (h : v.play bad script = some v') : Steps π env root v v' := by
  induction script generalizing v with
  | nil =>
    cases h
    exact .refl
  | cons x rest ih =>
    obtain ⟨c, names⟩ := x
    obtain ⟨s, _ | archive, begun⟩ := v
    · cases h
    · simp only [play] at h
      have sound := @Prog.exec_runs _ _ _ _ π _ (Stores.backendCall archive c) 100 names s hπ hb
      split at h
      · rename_i x s' he
        rw [he] at sound
        exact .head (.call (sound rfl)) (ih h)
      · cases h

end Vault

end

/-! ## The life of an object -/

namespace Reference

def target : ArchiveTarget := ⟨⟨"b", "o"⟩, endpoint ["u0", "attempts", "a"]⟩

def attempting : Option (Vault Keyed) :=
  (Vault.start ["a"] "b" ["t1"] blank).bind <| Vault.play (fun _ => false)
    [(.prepare ⟨"archive", 1, 1⟩ ⟨"b", "o"⟩ view, ["u0", "t2"])]

def filled (s : Disk (FileName Keyed) (Content Keyed)) : Disk (FileName Keyed) (Content Keyed) :=
  s.put ["u0", "attempts", "a"] .data (some ⟨.bytes [0], false⟩)

def committing : BackendCall := .commit ⟨"archive", 1, 1⟩ target view ⟨1, digestOf [0]⟩

def committed (v : Vault Keyed) :
    Option (Option ArchiveReceipt × Disk (FileName Keyed) (Content Keyed)) :=
  v.handle.bind fun archive =>
    match (Stores.backendCall archive committing).exec (fun _ => false) 100 ["t3", "r", "t4"]
      (filled v.disk) with
    | (some x, s) => some (committing.reports x, s)
    | _ => none

/-- The attempt is committed after its byte has arrived, in every setting that opens the blank
disk. -/
theorem committed_runs (env : Setting Keyed) (ho : env.opens blank) :
    ∃ v archive x s', attempting = some v ∧ v.handle = some archive ∧
      Vault.Steps anything env ["a"] ⟨blank, none, []⟩ v ∧
      Runs (fsMachine anything) (Stores.backendCall archive committing) (filled v.disk) x s' ∧
      committing.reports x = some receipt := by
  have hr : (attempting.bind committed).map (·.1) = some (some receipt) := by decide +kernel
  obtain ⟨⟨r, s'⟩, hc, rfl⟩ := Option.map_eq_some_iff.mp hr
  obtain ⟨v, hv, hc⟩ := Option.bind_eq_some_iff.mp hc
  obtain ⟨archive, ha, hc⟩ := Option.bind_eq_some_iff.mp hc
  obtain ⟨v₀, h₀, h₁⟩ := Option.bind_eq_some_iff.mp hv
  split at hc
  · rename_i x s he
    obtain ⟨hx, rfl⟩ := Prod.mk.inj (Option.some.inj hc)
    have run := @Prog.exec_runs _ _ _ _ anything _ (Stores.backendCall archive committing) 100
      ["t3", "r", "t4"] (filled v.disk) anything_generous (.inl rfl) x (by rw [he])
    rw [he] at run
    exact ⟨v, archive, x, s, hv, ha, .head (Vault.start_step anything_generous ho h₀)
      (Vault.play_steps anything_generous (.inl rfl) h₁), run, hx⟩
  · cases hc

end Reference

end HsmRs
