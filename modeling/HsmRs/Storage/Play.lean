import HsmRs.Local.Trial
import HsmRs.Storage.World

/-! # Playing calls

A list of calls executed one after the other on an open store, each with the names
it is given and with faults where `bad` marks them. What is played is reachable.
-/

namespace HsmRs

section

variable {κ : Type} [DecidableEq κ] [KeyHash κ] [Crates] {root : Dir}
  {π : Env (FileName κ) (Content κ)} {s : Disk (FileName κ) (Content κ)} {w w' : World κ}

namespace World

def start (root : Dir) (names : List String) (s : Disk (FileName κ) (Content κ)) :
    Option (World κ) :=
  match (LocalStorage.open root : Io κ _).run.exec (fun _ => false) 100 names s with
  | (some (.ok self), s') => some ⟨s', some self⟩
  | _ => none

def play (bad : Nat → Bool) : List (Request × List String) → World κ → Option (World κ)
  | [], w => some w
  | (request, names) :: rest, ⟨s, some self⟩ =>
      match (self.perform request).exec bad 100 names s with
      | (some (_, self'), s') => play bad rest ⟨s', some self'⟩
      | (none, _) => none
  | _ :: _, ⟨_, none⟩ => none

theorem start_reachable (hπ : π.Generous) (hl : s.lookup root .state = none)
    (hs : s.safeFile root .state = none) {names : List String} (h : start root names s = some w) :
    w.Reachable π root := by
  refine ⟨s, hl, hs, .single ?_⟩
  unfold start at h
  have sound := @Prog.exec_runs _ _ _ _ π _ (LocalStorage.open root : Io κ _).run 100 names s hπ
    (.inr fun _ => rfl)
  split at h
  · rename_i self s' he
    rw [he] at sound
    cases h
    exact .opened (sound rfl)
  · cases h

theorem play_steps (hπ : π.Generous) {bad : Nat → Bool}
    (hb : π.faults = true ∨ ∀ n, bad n = false) {script : List (Request × List String)}
    (h : w.play bad script = some w') : Steps π root w w' := by
  induction script generalizing w with
  | nil =>
    cases h
    exact .refl
  | cons x rest ih =>
    obtain ⟨request, names⟩ := x
    obtain ⟨s, _ | self⟩ := w
    · cases h
    · simp only [play] at h
      have sound := @Prog.exec_runs _ _ _ _ π _ (self.perform request) 100 names s hπ hb
      split at h
      · rename_i a self' s' he
        rw [he] at sound
        exact .head (.call (sound rfl)) (ih h)
      · cases h

def rehearse (keep : List String) : List (Request × List String) → World κ → Option (World κ)
  | [], w => some w
  | (request, names) :: rest, ⟨s, some self⟩ =>
      match (self.perform request).trial (rest.flatMap Prod.snd ++ keep) names s with
      | some ((_, self'), s') => rehearse keep rest ⟨s', some self'⟩
      | none => none
  | _ :: _, ⟨_, none⟩ => none

def enter (root : Dir) (names keep : List String) (s : Disk (FileName κ) (Content κ)) :
    Option (World κ) :=
  match (LocalStorage.open root : Io κ _).run.trial keep names s with
  | some (.ok self, s') => some ⟨s', some self⟩
  | _ => none

variable {π : Policy (FileName κ) (Content κ)}

omit [KeyHash κ] [Crates] in
theorem enter_runs (hπ : π.Offers) {names keep : List String} (nodup : (names ++ keep).Nodup)
    (unused : ∀ u ∈ names ++ keep, s.Unused u) (h : enter root names keep s = some w) :
    ∃ self, w.handle = some self ∧
      Runs (fsMachine π) (LocalStorage.open root).run s (.ok self) w.disk ∧
      ∀ u ∈ keep, w.disk.Unused u := by
  unfold enter at h
  split at h
  · rename_i self s' he
    obtain ⟨hr, hk⟩ := Prog.trial_offered hπ nodup unused he
    cases h
    exact ⟨self, rfl, hr, hk⟩
  · cases h

theorem enter_reachable (hπ : π.Offers) (hl : s.lookup root .state = none)
    (hs : s.safeFile root .state = none) {names keep : List String} (nodup : (names ++ keep).Nodup)
    (unused : ∀ u ∈ names ++ keep, s.Unused u) (h : enter root names keep s = some w) :
    w.Reachable π root ∧ ∀ u ∈ keep, w.disk.Unused u := by
  obtain ⟨self, hw, hr, hk⟩ := enter_runs hπ nodup unused h
  obtain ⟨s', handle⟩ := w
  obtain rfl : handle = some self := hw
  exact ⟨⟨s, hl, hs, .single (.opened hr)⟩, hk⟩

theorem rehearse_runs (hπ : π.Offers) {keep names : List String} {request : Request}
    {rest : List (Request × List String)} (h : w.rehearse keep ((request, names) :: rest) = some w')
    (nodup : (names ++ (rest.flatMap Prod.snd ++ keep)).Nodup)
    (unused : ∀ u ∈ names ++ (rest.flatMap Prod.snd ++ keep), w.disk.Unused u) :
    ∃ self answer self' s', w.handle = some self ∧
      Runs (fsMachine π) (self.perform request) w.disk (answer, self') s' ∧
      (∀ u ∈ rest.flatMap Prod.snd ++ keep, s'.Unused u) ∧
      rehearse keep rest ⟨s', some self'⟩ = some w' := by
  obtain ⟨s, _ | self⟩ := w
  · cases h
  · rw [rehearse] at h
    split at h
    · rename_i answer self' s' he
      obtain ⟨hr, hk⟩ := Prog.trial_offered hπ nodup unused he
      exact ⟨self, answer, self', s', rfl, hr, hk, h⟩
    · cases h

theorem rehearse_steps (hπ : π.Offers) {keep : List String} {script : List (Request × List String)}
    (h : w.rehearse keep script = some w') (nodup : (script.flatMap Prod.snd ++ keep).Nodup)
    (unused : ∀ u ∈ script.flatMap Prod.snd ++ keep, w.disk.Unused u) :
    Steps π root w w' ∧ ∀ u ∈ keep, w'.disk.Unused u := by
  induction script generalizing w with
  | nil =>
    cases h
    exact ⟨.refl, unused⟩
  | cons x rest ih =>
    obtain ⟨request, names⟩ := x
    simp only [List.flatMap_cons, List.append_assoc] at nodup unused
    obtain ⟨self, answer, self', s', hw, hr, hk, h⟩ := rehearse_runs hπ h nodup unused
    obtain ⟨hs, hu⟩ := ih h (List.nodup_append.mp nodup).2.1 hk
    obtain ⟨s, handle⟩ := w
    obtain rfl : handle = some self := hw
    exact ⟨.head (.call hr) hs, hu⟩

end World

end

/-! ## The life of an entity -/

namespace Reference

def content : DataKey := ⟨⟨"store", "ns", "e"⟩, 1⟩

def online : EntityState := ⟨content, 1, .online, 1, digestOf [0], []⟩

def view : DataView := ⟨content, "v", 1, digestOf [0], endpoint ["u0", "layouts", "s"]⟩

def receipt : ArchiveReceipt :=
  ⟨⟨"b", "o"⟩, content, 1, digestOf [0], "r", "local-fsync-v1"⟩

def offline : EntityState := (online.attached receipt).released

def recallOwner : RecallOwner :=
  ⟨⟨"recall", 1, 1⟩, ⟨content, "u1", receipt.key, endpoint ["u1", "layouts", "s"]⟩, receipt⟩

/-- One byte is imported, archived, released and about to be recalled. -/
def recalling : Option (World Keyed) :=
  (World.start ["s"] ["store", "ns", "t1"] blank).bind <| World.play (fun _ => false)
    [(.import "e" [0], ["u0", "t2", "t3"]),
      (.step ⟨"archive", 1, 1⟩ (.prepareArchive content), ["v", "t4"]),
      (.step ⟨"archive", 1, 1⟩ (.commitArchive view receipt), ["t5"]),
      (.step ⟨"release", 1, 1⟩ (.release (online.attached receipt)), ["t6"]),
      (.step ⟨"recall", 1, 1⟩ (.prepareRecall offline receipt), ["u1", "t7"])]

/-- What has been played is a run of the store wherever names that are not in use are handed out. -/
theorem recalling_runs {π : Env (FileName Keyed) (Content Keyed)} {w : World Keyed}
    (hπ : π.Generous) (faults : π.faults = true) (hw : recalling = some w) :
    w.Reachable π ["s"] := by
  obtain ⟨w₀, h₀, h₁⟩ := Option.bind_eq_some_iff.mp hw
  exact (World.start_reachable hπ rfl rfl h₀).steps (World.play_steps hπ (.inl faults) h₁)

theorem recalling_reachable : ∃ w self, recalling = some w ∧ w.handle = some self ∧
    w.Reachable anything ["s"] ∧ self.poisoned = false ∧
    self.state.recalls.lookup "u1" = some recallOwner ∧
    self.state.entities.lookup "e" = some ⟨offline, none⟩ ∧
    (self.state.steps.lookup (key (.step ⟨"recall", 1, 1⟩ .prepareRecall))).isSome := by
  have hr : (recalling.bind fun w => w.handle.bind fun self => self.state.recalls.lookup "u1") =
      some recallOwner := by decide +kernel
  have he : (recalling.bind fun w => w.handle.bind fun self => self.state.entities.lookup "e") =
      some ⟨offline, none⟩ := by decide +kernel
  have hp : (recalling.bind fun w => w.handle.map (·.poisoned)) = some false := by
    decide +kernel
  have hs : (recalling.bind fun w => w.handle.map fun self =>
      (self.state.steps.lookup (key (.step ⟨"recall", 1, 1⟩ .prepareRecall))).isSome) =
      some true := by decide +kernel
  obtain ⟨w, hw⟩ : ∃ w, recalling = some w := by
    cases h : recalling with
    | none => simp [h] at hr
    | some w => exact ⟨w, rfl⟩
  rw [hw, Option.bind_some] at hr he hp hs
  cases hh : w.handle with
  | none => simp [hh] at hr
  | some self =>
    rw [hh] at hr he hp hs
    exact ⟨w, self, hw, hh, recalling_runs anything_generous rfl hw, Option.some.inj hp, hr, he,
      Option.some.inj hs⟩

end Reference

end HsmRs
