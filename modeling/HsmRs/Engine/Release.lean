import HsmRs.Engine.Workflow
import HsmRs.Lib.Trace

/-! # What the engine asks for when it releases

The calls of `release` against adapters that may answer anything. The loop over the
anchors passes over those that are not verified and stops at the first one that is.
-/

namespace HsmRs

/-- The receipt is for this content under this key, and complete. -/
structure ArchiveReceipt.Attests (receipt : ArchiveReceipt) (data : DataKey) (key : ArchiveKey)
    (length : Nat) (digest : ContentDigest) : Prop where
  key_eq : receipt.key = key
  data_eq : receipt.data = data
  length_eq : receipt.length = length
  digest_eq : receipt.digest = digest
  receiptId : receipt.receiptId ≠ ""
  durabilityProfile : receipt.durabilityProfile ≠ ""

def ArchiveStatus.Uncertain : ArchiveStatus → Prop
  | .pending | .unknown => True
  | _ => False

namespace HsmEngine

theorem checkReceipt_eq_ok {receipt : ArchiveReceipt} {data : DataKey} {key : ArchiveKey}
    {length : Nat} {digest : ContentDigest} :
    checkReceipt receipt data key length digest = .ok () ↔
      receipt.Attests data key length digest := by
  unfold checkReceipt
  constructor
  · intro h
    split at h
    · cases h
    · rename_i hn
      simp only [not_or, not_not, ne_eq] at hn
      obtain ⟨h₁, h₂, h₃, h₄, h₅, h₆⟩ := hn
      exact ⟨h₁, h₂, h₃, h₄, h₅, h₆⟩
  · rintro ⟨h₁, h₂, h₃, h₄, h₅, h₆⟩
    simp [h₁, h₂, h₃, h₄, h₅, h₆]

theorem checkReceipt_error {receipt : ArchiveReceipt} {data : DataKey} {key : ArchiveKey}
    {length : Nat} {digest : ContentDigest} {e : HsmError}
    (h : checkReceipt receipt data key length digest = .error e) :
    e = .integrity "unbound or incomplete archive receipt" := by
  unfold checkReceipt at h
  split at h <;> cases h
  rfl

def examined (x : ArchiveReceipt × ArchiveStatus) : Event engineSig :=
  ⟨.backend (.inspect x.1.key), .ok x.2⟩

/-- The loop has passed over these anchors: bound, and neither verified nor uncertain. -/
def PassedOver (expected : EntityState) (passed : List (ArchiveReceipt × ArchiveStatus)) : Prop :=
  ∀ x ∈ passed, x.1.Attests expected.data x.1.key expected.length expected.digest ∧
    ¬ x.2.Uncertain ∧ x.2 ≠ .committed x.1

/-- How the loop can go: it passes over anchors until one is verified, unbound, uncertain or
answered with an error, or until none is left. -/
theorem traces_verifyAnchors {expected : EntityState} {anchors : List ArchiveReceipt}
    {past : List (Event engineSig)} {C : List (Event engineSig) → engineSig.Op → Prop}
    {Q : HsmResult Bool → List (Event engineSig) → Prop}
    (examines : ∀ passed a rest, anchors = passed.map Prod.fst ++ a :: rest →
      PassedOver expected passed → a.Attests expected.data a.key expected.length expected.digest →
      C (past ++ passed.map examined) (.backend (.inspect a.key)))
    (found : ∀ passed a rest, anchors = passed.map Prod.fst ++ a :: rest →
      PassedOver expected passed → a.Attests expected.data a.key expected.length expected.digest →
      Q (.ok true) (past ++ passed.map examined ++ [examined (a, .committed a)]))
    (exhausted : ∀ passed, anchors = passed.map Prod.fst → PassedOver expected passed →
      Q (.ok false) (past ++ passed.map examined))
    (unbound : ∀ passed, PassedOver expected passed →
      Q (.error (.integrity "unbound or incomplete archive receipt"))
        (past ++ passed.map examined))
    (failed : ∀ passed a e, PassedOver expected passed →
      Q (.error e) (past ++ passed.map examined ++ [⟨.backend (.inspect a), .error e⟩]))
    (uncertain : ∀ passed x, PassedOver expected passed → x.2.Uncertain →
      Q (.error (.unknown "release recovery source is uncertain"))
        (past ++ passed.map examined ++ [examined x])) :
    (verifyAnchors expected anchors).run.Traces C Q past := by
  induction anchors generalizing past with
  | nil => exact Prog.traces_ret.mpr (by simpa using exhausted [] rfl nofun)
  | cons a rest ih =>
    unfold verifyAnchors
    rw [Prog.traces_check]
    cases hb : checkReceipt a expected.data a.key expected.length expected.digest with
    | error e =>
      cases checkReceipt_error hb
      simpa using unbound [] nofun
    | ok =>
    have bound := checkReceipt_eq_ok.mp hb
    refine Prog.traces_call.mpr ⟨by simpa using examines [] a rest rfl nofun bound, ?_⟩
    rintro (e | status)
    · simpa using failed [] a.key e nofun
    -- one anchor further, the loop has passed over `a` as well
    have onward : ¬ status.Uncertain → status ≠ .committed a →
        (verifyAnchors expected rest).run.Traces C Q (past ++ [examined (a, status)]) := by
      intro hu hc
      have passes : ∀ {passed}, PassedOver expected passed →
          PassedOver expected ((a, status) :: passed) := by
        rintro passed hp x hx
        rcases List.mem_cons.mp hx with rfl | hx
        · exact ⟨bound, hu, hc⟩
        · exact hp x hx
      apply ih
      · intro passed b rest' hr hp hb
        simpa using examines ((a, status) :: passed) b rest' (by simp [hr]) (passes hp) hb
      · intro passed b rest' hr hp hb
        simpa using found ((a, status) :: passed) b rest' (by simp [hr]) (passes hp) hb
      · intro passed hr hp
        simpa using exhausted ((a, status) :: passed) (by simp [hr]) (passes hp)
      · intro passed hp
        simpa using unbound ((a, status) :: passed) (passes hp)
      · intro passed b e hp
        simpa using failed ((a, status) :: passed) b e (passes hp)
      · intro passed x hp hx
        simpa using uncertain ((a, status) :: passed) x (passes hp) hx
    cases status with
    | committed actual =>
      by_cases h : actual = a
      · subst h
        simpa [examined] using found [] actual rest rfl nofun bound
      · simpa [h, examined] using onward (fun h => h) (by simpa using h)
    | absent => exact onward (fun h => h) (by simp)
    | pending => simpa [examined] using uncertain [] (a, .pending) nofun trivial
    | unknown => simpa [examined] using uncertain [] (a, .unknown) nofun trivial

/-- What `release` has observed before it looks at the anchors. -/
def observed (ctx : OperationContext) (expected : EntityState) : List (Event engineSig) :=
  [⟨.storage (.completed ctx expected.data .release), .ok none⟩,
    ⟨.storage (.inspect expected.data.entity), .ok expected⟩]

/-- The backend has not known about an archive it was asked for. -/
def Undecided (past : List (Event engineSig)) : Prop :=
  ∃ key status, ArchiveStatus.Uncertain status ∧ ⟨.backend (.inspect key), .ok status⟩ ∈ past

theorem undecided_append {past past' : List (Event engineSig)} :
    Undecided (past ++ past') ↔ Undecided past ∨ Undecided past' := by
  constructor
  · rintro ⟨key, status, hu, hm⟩
    exact (List.mem_append.mp hm).imp (fun h => ⟨key, status, hu, h⟩) fun h => ⟨key, status, hu, h⟩
  · rintro (⟨key, status, hu, hm⟩ | ⟨key, status, hu, hm⟩)
    · exact ⟨key, status, hu, List.mem_append_left _ hm⟩
    · exact ⟨key, status, hu, List.mem_append_right _ hm⟩

theorem not_undecided_examined {expected : EntityState}
    {passed : List (ArchiveReceipt × ArchiveStatus)} (h : PassedOver expected passed) :
    ¬ Undecided (passed.map examined) := by
  rintro ⟨key, status, hu, hm⟩
  obtain ⟨x, hx, he⟩ := List.mem_map.mp hm
  cases he
  exact (h x hx).2.1 hu

theorem not_undecided_storage {c : StorageCall} {x : c.Ans} :
    ¬ Undecided [⟨.storage c, x⟩] := by
  rintro ⟨key, status, hu, hm⟩
  cases List.mem_singleton.mp hm

theorem not_undecided_observed {ctx : OperationContext} {expected : EntityState} :
    ¬ Undecided (observed ctx expected) := by
  rintro ⟨key, status, hu, hm⟩
  simp [observed] at hm

def Requested (past : List (Event engineSig)) : Prop :=
  ∃ ctx expected x, ⟨.storage (.release ctx expected), x⟩ ∈ past

/-- What `release` asks its adapters: nothing but questions before a release that is verified. -/
inductive Asks (ctx : OperationContext) (expected : EntityState) (past : List (Event engineSig)) :
    Call → Prop where
  | completed : Asks ctx expected past (.storage (.completed ctx expected.data .release))
  | inspect : Asks ctx expected past (.storage (.inspect expected.data.entity))
  | examine {a : ArchiveReceipt} : a ∈ expected.anchors →
      a.Attests expected.data a.key expected.length expected.digest →
      Asks ctx expected past (.backend (.inspect a.key))
  | release {passed : List (ArchiveReceipt × ArchiveStatus)} {a : ArchiveReceipt}
      {rest : List ArchiveReceipt} : expected.anchors = passed.map Prod.fst ++ a :: rest →
      PassedOver expected passed → a.Attests expected.data a.key expected.length expected.digest →
      past = observed ctx expected ++ passed.map examined ++ [examined (a, .committed a)] →
      Asks ctx expected past (.storage (.release ctx expected))

theorem traces_release {ctx : OperationContext} {expected : EntityState} :
    (release ctx expected).run.Traces (Asks ctx expected)
      (fun r past => Undecided past → (∃ m, r = .error (.unknown m)) ∧ ¬ Requested past) [] := by
  unfold release
  rw [Prog.traces_check]
  cases ctx.validate with
  | error e =>
    rintro ⟨key, status, hu, hm⟩
    cases hm
  | ok =>
  refine Prog.traces_call.mpr ⟨.completed, ?_⟩
  rintro (e | r)
  · exact fun h => (not_undecided_storage h).elim
  cases r with
  | some result => exact Prog.traces_ret.mpr fun h => (not_undecided_storage h).elim
  | none =>
  refine Prog.traces_call.mpr ⟨.inspect, ?_⟩
  have storage : ∀ x y,
    ¬ Undecided ([] ++ [⟨.storage (.completed ctx expected.data .release), x⟩] ++
      [⟨.storage (.inspect expected.data.entity), y⟩]) := by
    rintro x y ⟨key, status, hu, hm⟩
    simp at hm
  rintro (e | actual)
  · exact fun h => (storage _ _ h).elim
  refine Prog.traces_guard.mpr ⟨fun _ h => (storage _ _ h).elim, fun hs => ?_⟩
  rw [not_not] at hs
  subst hs
  refine Prog.traces_guard.mpr ⟨fun _ h => (storage _ _ h).elim, fun _ => ?_⟩
  have passing : ∀ {passed}, PassedOver actual passed →
      ¬ Undecided (observed ctx actual ++ passed.map examined) := fun hp h =>
    (undecided_append.mp h).elim not_undecided_observed (not_undecided_examined hp)
  have asked : ∀ {passed : List (ArchiveReceipt × ArchiveStatus)} {x},
      ¬ Requested (observed ctx actual ++ passed.map examined ++ [examined x]) := by
    rintro passed x ⟨c, e, y, hm⟩
    simp [observed, examined] at hm
  rw [Prog.traces_run_bind]
  change (verifyAnchors actual actual.anchors).run.Traces _ _ (observed ctx actual)
  refine traces_verifyAnchors ?_ ?_ ?_ ?_ ?_ ?_
  · intro passed a rest hr _ hb
    exact .examine (by simp [hr]) hb
  · intro passed a rest hr hp hb
    refine Prog.traces_op.mpr ⟨.release hr hp hb rfl, fun x => Prog.traces_ret.mpr fun h => ?_⟩
    rcases undecided_append.mp h with h | h
    · rcases undecided_append.mp h with h | h
      · exact (passing hp h).elim
      · obtain ⟨key, status, hu, hm⟩ := h
        cases List.mem_singleton.mp hm
        exact hu.elim
    · exact (not_undecided_storage h).elim
  · intro passed _ hp
    exact Prog.traces_ret.mpr fun h => (passing hp h).elim
  · exact fun passed hp h => (passing hp h).elim
  · intro passed a e hp h
    rcases undecided_append.mp h with h | h
    · exact (passing hp h).elim
    · obtain ⟨key, status, hu, hm⟩ := h
      cases List.mem_singleton.mp hm
  · exact fun passed x _ _ _ => ⟨⟨_, rfl⟩, asked⟩

/-- `release` asks the storage to release after it has verified an anchor, the anchors before
which are bound and decided; it asks for nothing else that changes anything, and an undecided
archive ends it without. -/
theorem release_verified (ctx : OperationContext) (expected : EntityState) :
    (∀ past c, (release ctx expected).run.Makes past c → Asks ctx expected past c) ∧
    ∀ past r, (release ctx expected).run.Ends past r → Undecided past →
      (∃ m, r = .error (.unknown m)) ∧ ¬ Requested past :=
  ⟨fun _ _ h => traces_release.makes h, fun _ _ h => traces_release.ends h⟩

def twice : EntityState :=
  let anchor := fun object => ⟨⟨"b", object⟩, ⟨⟨"s", "n", "e"⟩, 1⟩, 1, ⟨"blake3", [0]⟩, "r",
    "local-fsync-v1"⟩
  ⟨⟨⟨"s", "n", "e"⟩, 1⟩, 3, .dual, 1, ⟨"blake3", [0]⟩, [anchor "o", anchor "p"]⟩

theorem release_verified_twice : ∃ past,
    (release ⟨"release", 1, 1⟩ twice).run.Makes past (.storage (.release ⟨"release", 1, 1⟩ twice)) ∧
    Asks ⟨"release", 1, 1⟩ twice past (.storage (.release ⟨"release", 1, 1⟩ twice)) := by
  have h : ∃ past, (release ⟨"release", 1, 1⟩ twice).run.Makes past
      (.storage (.release ⟨"release", 1, 1⟩ twice)) := by
    apply Exists.intro
    refine .later (x := .ok none) rfl
      (.later (x := .ok twice) rfl (.later (x := .ok .absent) rfl ?_))
    exact .later (x := .ok (.committed (twice.anchors.get ⟨1, by decide⟩))) rfl (.torn rfl)
  obtain ⟨past, h⟩ := h
  exact ⟨past, h, (release_verified _ _).1 past _ h⟩

end HsmEngine

end HsmRs
