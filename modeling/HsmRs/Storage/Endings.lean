import HsmRs.Storage.Orphans

/-! # Which protections end

Two entries of the metadata decide whether a pinned view or a private layout can still go away:
the record of its owner's commit, and what the ID of its operation has completed. Without
either the commit can be made to succeed, and with one of them nothing ends the protection.
-/

namespace HsmRs

open LocalStorage

section

variable {κ : Type} [DecidableEq κ] [KeyHash κ] [Crates] {root : Dir} {st next : State κ}
  {ctx : OperationContext} {s : Disk (FileName κ) (Content κ)}
  {π : Policy (FileName κ) (Content κ)}

/-! ## What every protection has -/

namespace State

/-- Operations are qualified, they protect entities of the store, and every entity has content. -/
structure Rooted (st : State κ) : Prop where
  view : ∀ v o, st.views.lookup v = some o →
    qualify o.context = .ok () ∧ st.Owns o.view.data.entity
  «recall» : ∀ l o, st.recalls.lookup l = some o →
    qualify o.context = .ok () ∧ st.Owns o.target.data.entity
  outcome : ∀ op c, st.completed.lookup op = some c → qualify c.context = .ok ()
  content : ∀ id e, st.entities.lookup id = some e →
    ∃ b : Bytes, b.length = e.public.length ∧ digestOf b = e.public.digest

namespace Rooted

omit [DecidableEq κ] [KeyHash κ] in
theorem insert_entity (h : st.Rooted) {id : String} {e' : Entity}
    (he' : ∃ b : Bytes, b.length = e'.public.length ∧ digestOf b = e'.public.digest) {i : String}
    {x : Entity} (hx : (st.entities.insert id e').lookup i = some x) :
    ∃ b : Bytes, b.length = x.public.length ∧ digestOf b = x.public.digest := by
  rw [Table.lookup_insert] at hx
  split at hx
  · cases hx
    exact he'
  · exact h.content i x hx

omit [KeyHash κ] in
theorem record (h : st.Rooted) {k : κ} {saved : SavedStep κ} : (st.record k saved).Rooted :=
  ⟨h.view, h.recall, h.outcome, h.content⟩

omit [DecidableEq κ] [KeyHash κ] in
theorem effect {fresh : String → Prop} {request : StepRequest} {value : StepValue}
    (h : st.Rooted) (hq : qualify ctx = .ok ()) (he : Effect root fresh st ctx request value next) :
    next.Rooted := by
  have outcome : ∀ op c, next.completed.lookup op = some c → qualify c.context = .ok () := by
    intro op c hc
    rcases he.completes with ⟨completed, -⟩ |
      ⟨id, e, e', action, -, -, -, -, -, -, -, completed⟩
    · exact h.outcome op c (completed ▸ hc)
    · rw [completed, Table.lookup_insert] at hc
      split at hc
      · cases hc
        exact hq
      · exact h.outcome op c hc
  have content : ∀ id e, next.entities.lookup id = some e →
      ∃ b : Bytes, b.length = e.public.length ∧ digestOf b = e.public.digest := by
    intro id e hx
    rcases he.completes with ⟨-, entities⟩ |
      ⟨i, e₀, e', action, h₀, -, -, -, continues, -, entities, -⟩
    · exact h.content id e (entities ▸ hx)
    · rw [entities] at hx
      refine h.insert_entity ?_ hx
      rw [continues.length, continues.digest]
      exact h.content i e₀ h₀
  refine ⟨?_, ?_, outcome, content⟩
  · cases he with
    | prepareArchive he =>
      intro v o ho
      simp only [Table.lookup_insert] at ho
      split at ho
      · cases ho
        exact ⟨hq, (State.entity_eq_ok.mp he).1⟩
      · exact h.view v o ho
    | commitArchive =>
      intro v o ho
      simp only [Table.lookup_erase] at ho
      split at ho
      · cases ho
      · exact h.view v o ho
    | _ => exact h.view
  · cases he with
    | prepareRecall he =>
      intro l o ho
      simp only [Table.lookup_insert] at ho
      split at ho
      · cases ho
        exact ⟨hq, (State.entity_eq_ok.mp he).1⟩
      · exact h.recall l o ho
    | commitRecall =>
      intro l o ho
      simp only [Table.lookup_erase] at ho
      split at ho
      · cases ho
      · exact h.recall l o ho
    | _ => exact h.recall

theorem closed : Closed root (Rooted : State κ → Prop) := by
  intro fresh st request answer next h hs
  cases hs with
  | failed => exact h.record
  | done hq _ he => exact (h.effect hq he).record
  | imported => exact ⟨h.view, h.recall, h.outcome, fun _ _ => h.insert_entity ⟨_, rfl, rfl⟩⟩
  | collected => exact ⟨h.view, h.recall, h.outcome, h.content⟩

omit [DecidableEq κ] [KeyHash κ] [Crates] in
theorem new {a b : String} [DecidableEq κ] [Crates] : (State.new a b : State κ).Rooted := by
  refine ⟨?_, ?_, ?_, ?_⟩ <;> intros <;> simp_all [State.new]

/-- A commit that is not pending can never succeed. -/
theorem spent (h : st.Rooted) (hh : st.Historic) (hq : qualify ctx = .ok ()) {commit : StepName}
    (hn : ¬ st.Pending ctx commit) : st.Spent ctx commit := by
  by_cases hr : st.steps.lookup (key (.step ctx commit)) = none
  · cases hc : st.completed.lookup ctx.operationId with
    | none => exact (hn ⟨hr, hc⟩).elim
    | some c =>
      refine .inr ⟨c, hc, ?_⟩
      rintro rfl
      obtain ⟨same, fingerprint, hs⟩ := hh.outcome _ c hc
      rw [qualified_eq (h.outcome _ c hc) hq same, hr] at hs
      cases hs
  · exact .inl hr

theorem committable_view (h : st.Rooted) {v : String} {o : ViewOwner}
    (ho : st.views.lookup v = some o) (hp : st.Pending o.context .commitArchive) :
    st.Committable o.context o.view.data .commitArchive :=
  ⟨(h.view v o ho).1, (h.view v o ho).2, hp⟩

theorem committable_recall (h : st.Rooted) {l : String} {o : RecallOwner}
    (ho : st.recalls.lookup l = some o) (hp : st.Pending o.context .commitRecall) :
    st.Committable o.context o.target.data .commitRecall :=
  ⟨(h.recall l o ho).1, (h.recall l o ho).2, hp⟩

end Rooted

/-- Nothing protects the content. -/
def Unprotected (st : State κ) (data : DataKey) : Prop :=
  ¬ st.views.Any (fun o => o.view.data = data) ∧ ¬ st.recalls.Any (fun o => o.target.data = data)

omit [DecidableEq κ] [KeyHash κ] in
theorem Coherent.unprotected_erase_view (h : st.Coherent root) {v : String} {o : ViewOwner}
    (ho : st.views.lookup v = some o) (views : next.views = st.views.erase v)
    (recalls : next.recalls = st.recalls) : next.Unprotected o.view.data := by
  refine ⟨Table.not_any_iff.mpr fun v' o' ho' hd => ?_,
    Table.not_any_iff.mpr fun l o' ho' hd => ?_⟩
  · rw [views, Table.lookup_erase] at ho'
    split at ho'
    · cases ho'
    · rename_i hne
      exact hne (h.oneView _ _ _ _ ho' ho hd)
  · rw [recalls] at ho'
    exact h.exclusive ho ho' hd.symm

omit [DecidableEq κ] [KeyHash κ] in
theorem Coherent.unprotected_erase_recall (h : st.Coherent root) {l : String} {o : RecallOwner}
    (ho : st.recalls.lookup l = some o) (recalls : next.recalls = st.recalls.erase l)
    (views : next.views = st.views) : next.Unprotected o.target.data := by
  refine ⟨Table.not_any_iff.mpr fun v o' ho' hd => ?_,
    Table.not_any_iff.mpr fun l' o' ho' hd => ?_⟩
  · rw [views] at ho'
    exact h.exclusive ho' ho hd
  · rw [recalls, Table.lookup_erase] at ho'
    split at ho'
    · cases ho'
    · rename_i hne
      exact hne (h.oneRecall _ _ _ _ ho' ho hd)

end State

/-! ## Layouts that others put in order -/

/-- The disk with a directory that holds just these bytes and is not locked. -/
def Disk.furnished (s : Disk (FileName κ) (Content κ)) (d : Dir) (b : Bytes) :
    Disk (FileName κ) (Content κ) :=
  { s with
    dir := fun d' => if d' = d then true else s.dir d'
    file := fun d' n => if d' = d then (if n = .data then some ⟨.bytes b, true⟩ else none)
      else s.file d' n
    locked := fun d' n => if d' = d ∧ n = .transferLock then false else s.locked d' n }

variable {d : Dir} {b : Bytes}

omit [KeyHash κ] [Crates] in
theorem Disk.lookup_furnished_ne {d' : Dir} {n : FileName κ} (hd : d' ≠ d) :
    (s.furnished d b).lookup d' n = s.lookup d' n := by
  simp [Disk.lookup, Disk.furnished, hd]

omit [KeyHash κ] [Crates] in
theorem Disk.holds_furnished : (s.furnished d b).Holds d b :=
  ⟨true, by simp [Disk.lookup, Disk.furnished]⟩

omit [KeyHash κ] [Crates] in
theorem Outside.furnished (hd : root ≠ d) : Outside root s (s.furnished d b) where
  now := by rw [Disk.lookup_furnished_ne hd]; exact .refl _
  safe := .inl rfl
  issued _ := id

omit [KeyHash κ] [Crates] in
theorem Disk.Roomy.furnished {l : String} {p : Dir} (h : s.Roomy) :
    (s.furnished (l :: p) b).Roomy := by
  intro used
  obtain ⟨u, hu, unused⟩ := h (l :: used)
  simp only [List.mem_cons, not_or] at hu
  refine ⟨u, hu.2, unused.issued, fun d => ?_, fun d n hb => ?_⟩
  · simp [Disk.furnished, hu.1, unused.dir d]
  · by_cases hd : d = l :: p
    · have : n ≠ .data := by
        rintro rfl
        cases hb
      simp [Disk.lookup, Disk.furnished, hd, this]
    · rw [Disk.lookup_furnished_ne hd]
      exact unused.file d n hb

/-! ## Ending and staying -/

namespace World

/-- It can come to metadata like this on an open store. -/
def Ends (π : Policy (FileName κ) (Content κ)) (root : Dir) (w : World κ)
    (gone : State κ → Prop) : Prop :=
  ∃ w' self', Steps π root w w' ∧ w'.handle = some self' ∧ gone self'.state

variable {w : World κ} {self : LocalStorage κ} {request : Request} {gone : State κ → Prop}
  {s' : Disk (FileName κ) (Content κ)}

theorem ends_of_attains (offers : π.Offers) (outside : Outside root s s')
    (h : self.Attains regular s' request gone) : Ends π root ⟨s, some self⟩ gone := by
  obtain ⟨⟨answer, self', s'', hr⟩, all⟩ := h
  refine ⟨⟨s'', some self'⟩, self', ?_, rfl, (all answer self' s'' hr).2⟩
  have call := offers.runs (fun s u (hu : regular.uuid s u) => hu) rfl rfl hr
  exact .tail (.single (.outside outside)) (.call call)

theorem Reachable.rooted (h : w.Reachable π root) : w.Keeps π root fun _ st => st.Rooted :=
  h.keeps State.Rooted.closed.stable fun _ _ _ => .new

end World

/-- A protection in the metadata of an open store can be ended, with the transfer lock free and the
right bytes in the layout, exactly if the commit of its owner has not been tried and the ID of its
operation has completed nothing; then nothing protects the content any more. Otherwise it stays,
whatever is called and however often the store is opened again. -/
theorem protections_decided {w : World κ} {self : LocalStorage κ} (hπ : π.Fresh)
    (offers : π.Offers) (h : w.Reachable π root) (hw : w.handle = some self)
    (healthy : self.poisoned = false) (roomy : w.disk.Roomy) :
    (∀ v o, self.state.views.lookup v = some o →
      (self.state.Pending o.context .commitArchive → w.Ends π root fun st =>
        st.views.lookup v = none ∧ st.Unprotected o.view.data) ∧
      (¬ self.state.Pending o.context .commitArchive → w.Stays π root fun st =>
        st.views.lookup v = some o ∧ st.Pins root o.view)) ∧
    ∀ l o, self.state.recalls.lookup l = some o →
      (self.state.Pending o.context .commitRecall → w.Ends π root fun st =>
        st.recalls.lookup l = none ∧ st.Unprotected o.target.data) ∧
      (¬ self.state.Pending o.context .commitRecall → w.Stays π root fun st =>
        st.recalls.lookup l = some o ∧ st.Reserves root o) := by
  have rooted := h.rooted.cached self hw
  have historic := h.historic.cached self hw
  obtain ⟨s, handle⟩ := w
  obtain rfl : handle = some self := hw
  obtain rfl := h.coherent.root_eq self rfl
  have coherent := historic.1
  have safe := h.coherent.safe self rfl healthy
  refine ⟨fun v o ho => ⟨fun pending => ?_, fun hn => ?_⟩, fun l o ho =>
    ⟨fun pending => ?_, fun hn => ?_⟩⟩
  · obtain ⟨-, e, layout, hx, -, -, source, -, -⟩ := coherent.view v o ho
    obtain ⟨b, -, -⟩ := rooted.content _ e hx
    have outside : Outside self.root s (s.furnished (layoutDir self.root layout) b) :=
      .furnished layoutDir_ne_root.symm
    obtain ⟨receipt, ends⟩ := (rooted.committable_view ho pending).ends_view coherent
      regular_smooth regular_offers roomy.furnished healthy (outside.safe_of safe) ho fun e he => by
        rw [source, decodeEndpoint_endpoint] at he
        cases he
        exact ⟨if_pos rfl, if_pos ⟨rfl, rfl⟩⟩
    refine World.ends_of_attains offers outside (ends.mono fun st hst => ⟨by simp [hst.1], ?_⟩)
    exact coherent.unprotected_erase_view ho hst.1 hst.2
  · exact h.view_stays hπ rfl ho (rooted.spent historic.2 (rooted.view v o ho).1 hn)
  · obtain ⟨-, e, hx, hd, -⟩ := coherent.recall l o ho
    obtain ⟨b, hb, hg⟩ := rooted.content _ e hx
    have outside : Outside self.root s (s.furnished (layoutDir self.root l) b) :=
      .furnished layoutDir_ne_root.symm
    obtain ⟨evidence, ends⟩ := (rooted.committable_recall ho pending).ends_recall coherent
      regular_smooth regular_offers roomy.furnished healthy (outside.safe_of safe) ho
      Disk.holds_furnished (fun e' he' => by
        obtain ⟨-, hx', -⟩ := State.entity_eq_ok.mp he'
        cases hx.symm.trans hx'
        exact ⟨hb, hg⟩) (if_pos ⟨rfl, rfl⟩)
    refine World.ends_of_attains offers outside (ends.mono fun st hst => ⟨by simp [hst.1], ?_⟩)
    exact coherent.unprotected_erase_recall ho hst.1 hst.2
  · exact h.recall_stays hπ rfl ho (rooted.spent historic.2 (rooted.recall l o ho).1 hn)

end

namespace Reference

/-- The pinned byte has not been committed, so its view can go away. -/
theorem protections_decided_held : ∃ w self, held = some w ∧ w.handle = some self ∧
    self.state.views.lookup "v" = some ⟨⟨"archive", 1, 1⟩, view⟩ ∧
    w.Ends regular ["s"] fun st => st.views.lookup "v" = none ∧ st.Unprotected content := by
  have hp : (held.bind fun w => w.handle.map fun self => (self.poisoned,
      self.state.steps.lookup (key (.step ⟨"archive", 1, 1⟩ .commitArchive)) |>.isNone,
      self.state.completed.lookup "archive" |>.isNone)) = some (false, true, true) := by
    decide +kernel
  obtain ⟨w, self, hw, hs, heeded, roomy, -, hv⟩ := held_heeded
  rw [hw] at hp
  simp only [Option.bind_some, hs, Option.map_some, Option.some.injEq, Prod.mk.injEq,
    Option.isNone_iff_eq_none] at hp
  exact ⟨w, self, hw, hs, hv, ((protections_decided regular_fresh regular_offers heeded.reachable hs
    hp.1 roomy).1 "v" _ hv).1 ⟨hp.2.1, hp.2.2⟩⟩

/-- The recall of the released byte is prepared under the ID that has archived it. -/
def reused : Option (World Keyed) :=
  (World.enter ["s"] ["store", "ns", "t1"]
    ["u0", "t2", "t3", "v", "t4", "t5", "t6", "u1", "t7"] blank).bind <| World.rehearse []
      [(.import "e" [0], ["u0", "t2", "t3"]),
        (.step ⟨"archive", 1, 1⟩ (.prepareArchive content), ["v", "t4"]),
        (.step ⟨"archive", 1, 1⟩ (.commitArchive view receipt), ["t5"]),
        (.step ⟨"release", 1, 1⟩ (.release (online.attached receipt)), ["t6"]),
        (.step ⟨"archive", 1, 1⟩ (.prepareRecall offline receipt), ["u1", "t7"])]

def reusedOwner : RecallOwner := { recallOwner with context := ⟨"archive", 1, 1⟩ }

/-- No sequence of calls ends it. -/
theorem recall_kept_reused : ∃ w self, reused = some w ∧ w.handle = some self ∧
    w.Reachable regular.sighted ["s"] ∧ self.state.recalls.lookup "u1" = some reusedOwner ∧
    ∀ w' st, World.Steps regular.sighted ["s"] w w' → w'.Version ["s"] st →
      st.recalls.lookup "u1" = some reusedOwner := by
  have hr : (reused.bind fun w => w.handle.bind fun self => self.state.recalls.lookup "u1") =
      some reusedOwner := by decide +kernel
  have hc : (reused.bind fun w => w.handle.bind fun self =>
      (self.state.completed.lookup "archive").map fun c => c.action.step) =
      some .commitArchive := by decide +kernel
  obtain ⟨w, hw, hr⟩ := Option.bind_eq_some_iff.mp hr
  obtain ⟨self, hs, hr⟩ := Option.bind_eq_some_iff.mp hr
  obtain ⟨w₀, h₀, h₁⟩ := Option.bind_eq_some_iff.mp hw
  obtain ⟨reachable, unused⟩ := World.enter_reachable regular_offers rfl rfl (by decide)
    (fun u hu => blank_unused (by rintro rfl; revert hu; decide)
      (by rintro rfl; revert hu; decide)) h₀
  have h := reachable.steps (World.rehearse_steps regular_offers h₁ (by decide) unused).1
  rw [hw, Option.bind_some, hs, Option.bind_some, Option.map_eq_some_iff] at hc
  obtain ⟨c, hc, archived⟩ := hc
  have spent : self.state.Spent reusedOwner.context .commitRecall :=
    .inr ⟨c, hc, by rw [archived]; decide⟩
  exact ⟨w, self, hw, hs, h, hr, fun w' st steps version =>
    (h.recall_stays regular_fresh hs hr spent w' st steps version).1⟩

end Reference

end HsmRs
