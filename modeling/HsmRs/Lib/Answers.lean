import HsmRs.Lib.Frame

/-! # What an answer says

An operation that reports success has had its effect; whatever it reports, it
leaves a state that a crash inside it could have left as well. Without faults
the answers of most operations are determined.
-/

namespace HsmRs

variable {ν β α : Type} [DecidableEq ν] {π : Env ν β} {s s' : Disk ν β} {d : Dir} {n a b : ν}

namespace FsStep

theorem tear {o : FsOp ν β} {x : o.Ans} (h : FsStep π s o x s') : s.Tear o s' := by
  cases h with
  | respond _ u => exact .after _ u
  | fault _ _ _ ht => exact ht
  | inexact _ hd => exact .transfer hd
  | unseen => exact .before _

theorem responds_or_fails {o : FsOp ν β} {x : o.Ans} (h : FsStep π s o x s')
    (ho : ∀ src dst m, o ≠ .transfer src dst m)
    (seen : o.unseen = none ∨ π.statFaults = false) :
    (∃ u, (o = .uuid → π.uuid s u) ∧ x = (s.respond u o).1 ∧ s' = (s.respond u o).2) ∨
    (π.faults = true ∧ ∃ e, e.kind = .other ∧ o.failure e = some x ∧ s.Tear o s') := by
  cases h with
  | respond _ u hu => exact .inl ⟨u, hu, rfl, rfl⟩
  | fault hf hk he ht => exact .inr ⟨hf, _, hk, he, ht⟩
  | inexact _ _ => exact (ho _ _ _ rfl).elim
  | unseen hb hx =>
    rcases seen with hn | hs
    · cases hn.symm.trans hx
    · cases hs.symm.trans hb

theorem responds {o : FsOp ν β} {x : o.Ans} (h : FsStep π s o x s')
    (ho : ∀ src dst m, o ≠ .transfer src dst m) (hx : ∀ e, o.failure e ≠ some x)
    (seen : o.unseen = none ∨ π.statFaults = false) :
    ∃ u, (o = .uuid → π.uuid s u) ∧ x = (s.respond u o).1 ∧ s' = (s.respond u o).2 := by
  rcases h.responds_or_fails ho seen with hr | ⟨_, e, _, he, _⟩
  · exact hr
  · exact (hx e he).elim

theorem responds_of_faultless {o : FsOp ν β} {x : o.Ans} (h : FsStep π s o x s')
    (ho : ∀ src dst m, o ≠ .transfer src dst m) (hf : π.faults = false)
    (seen : o.unseen = none ∨ π.statFaults = false) :
    ∃ u, (o = .uuid → π.uuid s u) ∧ x = (s.respond u o).1 ∧ s' = (s.respond u o).2 := by
  rcases h.responds_or_fails ho seen with hr | ⟨hf', _⟩
  · exact hr
  · simp [hf] at hf'

/-- What a look finds is there, but it can fail to find something. -/
theorem existsDir_or {x : Bool} (h : FsStep π s (.existsDir d) x s') :
    (x = s.dir d ∨ π.statFaults = true ∧ x = false) ∧ s' = s := by
  cases h with
  | respond => exact ⟨.inl rfl, rfl⟩
  | fault _ _ he => cases he
  | unseen hf he => exact ⟨.inr ⟨hf, (Option.some.inj he).symm⟩, rfl⟩

theorem existsFile_or {x : Bool} (h : FsStep π s (.existsFile d n) x s') :
    (x = (s.lookup d n).isSome ∨ π.statFaults = true ∧ x = false) ∧ s' = s := by
  cases h with
  | respond => exact ⟨.inl rfl, rfl⟩
  | fault _ _ he => cases he
  | unseen hf he => exact ⟨.inr ⟨hf, (Option.some.inj he).symm⟩, rfl⟩

theorem existsDir {x : Bool} (h : FsStep π s (.existsDir d) x s') (seen : π.statFaults = false) :
    x = s.dir d ∧ s' = s :=
  h.existsDir_or.imp_left fun hx => hx.resolve_right fun hf => by simp [seen] at hf

theorem existsFile {x : Bool} (h : FsStep π s (.existsFile d n) x s')
    (seen : π.statFaults = false) :
    x = (s.lookup d n).isSome ∧ s' = s :=
  h.existsFile_or.imp_left fun hx => hx.resolve_right fun hf => by simp [seen] at hf

theorem uuid {u : String} (h : FsStep π s .uuid u s') : π.uuid s u ∧ s' = s.issue u := by
  obtain ⟨v, hv, hx, hs⟩ := h.responds (by simp) (by simp [FsOp.failure]) (.inl rfl)
  have : u = v := hx
  subst this
  exact ⟨hv rfl, hs⟩

theorem unlock {x : Unit} (h : FsStep π s (.unlock d n) x s') : s' = s.setLock d n false := by
  obtain ⟨u, -, -, hs⟩ := h.responds (by simp) (by simp [FsOp.failure]) (.inl rfl)
  exact hs

theorem read_ok {c : β} (h : FsStep π s (.read d n) (.ok c) s') :
    ∃ f, s.lookup d n = some f ∧ f.content = c ∧ s' = s := by
  obtain ⟨u, -, hx, hs⟩ := h.responds (by simp) (by simp [FsOp.failure]) (.inl rfl)
  cases hf : s.lookup d n with
  | none => simp [Disk.respond, hf] at hx
  | some f => exact ⟨f, rfl, by simpa [Disk.respond, hf, eq_comm] using hx, hs⟩

theorem read_state {x : Except IoError β} (h : FsStep π s (.read d n) x s') : s' = s := by
  cases h.tear <;> rfl

theorem read_notFound {e : IoError} (h : FsStep π s (.read d n) (.error e) s')
    (he : e.kind = .notFound) : s.lookup d n = none := by
  rcases h.responds_or_fails (by simp) (.inl rfl) with ⟨u, -, hx, -⟩ | ⟨-, e', hk, hx, -⟩
  · cases hf : s.lookup d n with
    | none => rfl
    | some f => simp [Disk.respond, hf] at hx
  · simp only [FsOp.failure, Option.some.injEq, Except.error.injEq] at hx
    rw [← hx, hk] at he
    cases he

theorem createDir_ok (h : FsStep π s (.createDir d) (.ok ()) s') :
    s.dir d = false ∧ s.dir d.tail = true ∧ s' = s.mkdir d := by
  obtain ⟨u, -, hx, hs⟩ := h.responds (by simp) (by simp [FsOp.failure]) (.inl rfl)
  by_cases hd : s.dir d = true
  · simp [Disk.respond, hd] at hx
  · by_cases hp : s.dir d.tail = true
    · exact ⟨by simpa using hd, hp, by simpa [Disk.respond, hd, hp] using hs⟩
    · simp [Disk.respond, hd, hp] at hx

theorem create_ok {c : β} (h : FsStep π s (.create d n c) (.ok ()) s') :
    s.dir d = true ∧ s.lookup d n = none ∧ s' = s.put d n (some ⟨c, false⟩) := by
  obtain ⟨u, -, hx, hs⟩ := h.responds (by simp) (by simp [FsOp.failure]) (.inl rfl)
  by_cases hd : s.dir d = true
  · cases hn : s.lookup d n with
    | none => exact ⟨hd, rfl, by simpa [Disk.respond, hd, hn] using hs⟩
    | some f => simp [Disk.respond, hd, hn] at hx
  · simp [Disk.respond, hd] at hx

theorem syncFile_ok (h : FsStep π s (.syncFile d n) (.ok ()) s') :
    ∃ f, s.lookup d n = some f ∧ s' = s.put d n (some { f with synced := true }) := by
  obtain ⟨u, -, hx, hs⟩ := h.responds (by simp) (by simp [FsOp.failure]) (.inl rfl)
  cases hf : s.lookup d n with
  | none => simp [Disk.respond, hf] at hx
  | some f => exact ⟨f, rfl, by simpa [Disk.respond, hf] using hs⟩

theorem syncDir_ok (h : FsStep π s (.syncDir d) (.ok ()) s') : s.dir d = true ∧ s' = s.flush d := by
  obtain ⟨u, -, hx, hs⟩ := h.responds (by simp) (by simp [FsOp.failure]) (.inl rfl)
  by_cases hd : s.dir d = true
  · exact ⟨hd, by simpa [Disk.respond, hd] using hs⟩
  · simp [Disk.respond, hd] at hx

theorem removeDirAll_ok (h : FsStep π s (.removeDirAll d) (.ok ()) s') :
    s.dir d = true ∧ s' = s.prune d := by
  obtain ⟨u, -, hx, hs⟩ := h.responds (by simp) (by simp [FsOp.failure]) (.inl rfl)
  by_cases hd : s.dir d = true
  · exact ⟨hd, by simpa [Disk.respond, hd] using hs⟩
  · simp [Disk.respond, hd] at hx

theorem rename_ok (h : FsStep π s (.rename d a b) (.ok ()) s') :
    ∃ f, s.lookup d a = some f ∧ s' = (s.put d a none).put d b (some f) := by
  obtain ⟨u, -, hx, hs⟩ := h.responds (by simp) (by simp [FsOp.failure]) (.inl rfl)
  cases hf : s.lookup d a with
  | none => simp [Disk.respond, hf] at hx
  | some f => exact ⟨f, rfl, by simpa [Disk.respond, hf] using hs⟩

theorem hardLink_ok (h : FsStep π s (.hardLink d a b) (.ok ()) s') :
    ∃ f, s.lookup d a = some f ∧ s.lookup d b = none ∧ s' = s.put d b (some f) := by
  obtain ⟨u, -, hx, hs⟩ := h.responds (by simp) (by simp [FsOp.failure]) (.inl rfl)
  cases hf : s.lookup d a with
  | none => simp [Disk.respond, hf] at hx
  | some f =>
    cases hb : s.lookup d b with
    | some g => simp [Disk.respond, hf, hb] at hx
    | none => exact ⟨f, rfl, rfl, by simpa [Disk.respond, hf, hb] using hs⟩

theorem tryLock_ok (h : FsStep π s (.tryLock d n) (.ok ()) s') :
    s.locked d n = false ∧ s' = s.setLock d n true := by
  obtain ⟨u, -, hx, hs⟩ := h.responds (by simp) (by simp [FsOp.failure]) (.inl rfl)
  by_cases hl : s.locked d n = true
  · simp [Disk.respond, hl] at hx
  · exact ⟨by simpa using hl, by simpa [Disk.respond, hl] using hs⟩

theorem access_ok (h : FsStep π s (.access d) (.ok ()) s') : s.dir d = true ∧ s' = s := by
  obtain ⟨u, -, hx, hs⟩ := h.responds (by simp) (by simp [FsOp.failure]) (.inl rfl)
  by_cases hd : s.dir d = true
  · exact ⟨hd, hs⟩
  · simp [Disk.respond, hd] at hx

theorem transfer_ok {src dst : Dir} (h : FsStep π s (.transfer src dst n) (.ok ()) s') :
    ∃ c, s.dir dst = true ∧ s' = s.put dst n (some ⟨c, false⟩) ∧
      (π.exact = true → ∃ f, s.lookup src n = some f ∧ c = f.content) := by
  generalize hx : (Except.ok () : Except IoError Unit) = x at h
  cases h with
  | respond _ u _ =>
    cases hf : s.lookup src n with
    | none => simp [Disk.respond, hf] at hx
    | some f =>
      simp only [Disk.respond, hf] at hx ⊢
      split at hx
      · exact ⟨f.content, ‹_›, by simp_all, fun _ => ⟨f, rfl, rfl⟩⟩
      · cases hx
  | fault _ _ he _ =>
    subst hx
    simp [FsOp.failure] at he
  | inexact hi hd => exact ⟨_, hd, rfl, fun he => by simp [hi] at he⟩
  | unseen _ hx => cases hx

/-! ### Errors

An error is a fault, or the disk shows its reason.
-/

theorem read_error {e : IoError} (h : FsStep π s (.read d n) (.error e) s') :
    π.faults = true ∨ s.lookup d n = none := by
  rcases h.responds_or_fails (by simp) (.inl rfl) with ⟨u, -, hx, -⟩ | ⟨hf, -⟩
  · cases hn : s.lookup d n with
    | none => exact .inr rfl
    | some f => simp [Disk.respond, hn] at hx
  · exact .inl hf

theorem createDir_error {e : IoError} (h : FsStep π s (.createDir d) (.error e) s') :
    π.faults = true ∨ s.dir d = true ∨ s.dir d.tail = false := by
  rcases h.responds_or_fails (by simp) (.inl rfl) with ⟨u, -, hx, -⟩ | ⟨hf, -⟩
  · by_cases hd : s.dir d = true
    · exact .inr (.inl hd)
    · by_cases hp : s.dir d.tail = true
      · simp [Disk.respond, hd, hp] at hx
      · exact .inr (.inr (by simpa using hp))
  · exact .inl hf

theorem create_error {c : β} {e : IoError} (h : FsStep π s (.create d n c) (.error e) s') :
    π.faults = true ∨ s.dir d = false ∨ s.lookup d n ≠ none := by
  rcases h.responds_or_fails (by simp) (.inl rfl) with ⟨u, -, hx, -⟩ | ⟨hf, -⟩
  · by_cases hd : s.dir d = true
    · cases hn : s.lookup d n with
      | none => simp [Disk.respond, hd, hn] at hx
      | some f => simp
    · exact .inr (.inl (by simpa using hd))
  · exact .inl hf

theorem syncFile_error {e : IoError} (h : FsStep π s (.syncFile d n) (.error e) s') :
    π.faults = true ∨ s.lookup d n = none := by
  rcases h.responds_or_fails (by simp) (.inl rfl) with ⟨u, -, hx, -⟩ | ⟨hf, -⟩
  · cases hn : s.lookup d n with
    | none => exact .inr rfl
    | some f => simp [Disk.respond, hn] at hx
  · exact .inl hf

theorem syncDir_error {e : IoError} (h : FsStep π s (.syncDir d) (.error e) s') :
    π.faults = true ∨ s.dir d = false := by
  rcases h.responds_or_fails (by simp) (.inl rfl) with ⟨u, -, hx, -⟩ | ⟨hf, -⟩
  · by_cases hd : s.dir d = true
    · simp [Disk.respond, hd] at hx
    · exact .inr (by simpa using hd)
  · exact .inl hf

theorem access_error {e : IoError} (h : FsStep π s (.access d) (.error e) s') :
    π.faults = true ∨ s.dir d = false := by
  rcases h.responds_or_fails (by simp) (.inl rfl) with ⟨u, -, hx, -⟩ | ⟨hf, -⟩
  · by_cases hd : s.dir d = true
    · simp [Disk.respond, hd] at hx
    · exact .inr (by simpa using hd)
  · exact .inl hf

theorem rename_error {e : IoError} (h : FsStep π s (.rename d a b) (.error e) s') :
    π.faults = true ∨ s.lookup d a = none := by
  rcases h.responds_or_fails (by simp) (.inl rfl) with ⟨u, -, hx, -⟩ | ⟨hf, -⟩
  · cases hn : s.lookup d a with
    | none => exact .inr rfl
    | some f => simp [Disk.respond, hn] at hx
  · exact .inl hf

theorem hardLink_error {e : IoError} (h : FsStep π s (.hardLink d a b) (.error e) s') :
    π.faults = true ∨ s.lookup d a = none ∨ s.lookup d b ≠ none := by
  rcases h.responds_or_fails (by simp) (.inl rfl) with ⟨u, -, hx, -⟩ | ⟨hf, -⟩
  · cases hn : s.lookup d a with
    | none => exact .inr (.inl rfl)
    | some f =>
      cases hb : s.lookup d b with
      | none => simp [Disk.respond, hn, hb] at hx
      | some g => simp
  · exact .inl hf

theorem tryLock_error {e : IoError} (h : FsStep π s (.tryLock d n) (.error e) s') :
    π.faults = true ∨ s.locked d n = true := by
  rcases h.responds_or_fails (by simp) (.inl rfl) with ⟨u, -, hx, -⟩ | ⟨hf, -⟩
  · by_cases hl : s.locked d n = true
    · exact .inr hl
    · simp [Disk.respond, hl] at hx
  · exact .inl hf

theorem transfer_error {src dst : Dir} {e : IoError}
    (h : FsStep π s (.transfer src dst n) (.error e) s') :
    π.faults = true ∨ s.lookup src n = none ∨ s.dir dst = false := by
  generalize hx : (Except.error e : Except IoError Unit) = x at h
  cases h with
  | respond _ u _ =>
    cases hf : s.lookup src n with
    | none => exact .inr (.inl rfl)
    | some f =>
      by_cases hd : s.dir dst = true
      · simp [Disk.respond, hf, hd] at hx
      · exact .inr (.inr (by simpa using hd))
  | fault hf => exact .inl hf
  | inexact => cases hx
  | unseen _ he => cases he

end FsStep

end HsmRs
