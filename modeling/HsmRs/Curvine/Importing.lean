import HsmRs.Curvine.Chunks

/-! # Import

A fresh import is checked against the content that has been read from the local source. The
outcome of an earlier attempt is checked for its form only.
-/

namespace HsmRs

open CurvineCrates Native CurvineStorage

section

variable [CurvineCrates] [Crates] {self : CurvineStorage} {fuel : Nat} {ctx : OperationContext}
  {path : String} {source : DataEndpoint}

/-- How an import begins: it copies the source, and asks for an earlier outcome. -/
def started (ctx : OperationContext) (path : String) (source : DataEndpoint) (root dir : Dir)
    (evidence : TransferEvidence) (x : HsmResult Bytes) : List (Event nativeSig) :=
  [⟨.tempdir, .ok root⟩, ⟨.canonicalize root, .ok dir⟩,
    ⟨.localCopy ctx source (endpoint dir), .ok evidence⟩,
    ⟨.exchange (.completedImport ctx path evidence.length evidence.digest), x⟩]

/-- The state is well formed and has the content that has been read. -/
def Checked (evidence : TransferEvidence) (s : EntityState) : Prop :=
  validateState s = .ok () ∧ s.length = evidence.length ∧ s.digest = evidence.digest

/-- An earlier outcome, if the server has one, is one of this content. -/
def SameContent (evidence : TransferEvidence) (x : HsmResult Bytes) : Prop :=
  ∀ prior, replied "completed" toCompleted x = .ok (some prior) →
    prior.length = evidence.length ∧ prior.digest = evidence.digest

theorem traces_payloadEndpoint {α : Type} {C : List (Event nativeSig) → NativeOp → Prop}
    {Q : HsmResult α → List (Event nativeSig) → Prop} {f : DataEndpoint → Native α} {root : Dir}
    {past : List (Event nativeSig)} : (payloadEndpoint root >>= f).run.Traces C Q past ↔
      C past (.canonicalize root) ∧ ∀ x, match (Except.mapError HsmError.io x : HsmResult Dir) with
        | .ok dir => (f (endpoint dir)).run.Traces C Q (past ++ [⟨.canonicalize root, x⟩])
        | .error e => Q (.error e) (past ++ [⟨.canonicalize root, x⟩]) := by
  unfold payloadEndpoint
  rw [bind_assoc]
  refine Prog.traces_call.trans (and_congr_right fun _ => forall_congr' fun x => ?_)
  cases x <;> rfl

omit [Crates] in
theorem traces_importFresh {root : Dir} {evidence : TransferEvidence}
    {past : List (Event nativeSig)} :
    (importFresh fuel ctx path root evidence).run.Traces (fun _ _ => True)
      (fun r _ => ∀ s, r = .ok s → Checked evidence s) past := by
  unfold importFresh
  refine Prog.traces_run_bind.mpr ((Prog.within_of_forall fun _ => trivial).traces.mono
    (fun _ _ _ => trivial) ?_)
  rintro (e | target) past -
  · exact nofun
  refine Prog.traces_guard.mpr ⟨fun _ => nofun, fun _ => ?_⟩
  refine Prog.traces_run_bind.mpr ((Prog.within_of_forall fun _ => trivial).traces.mono
    (fun _ _ _ => trivial) ?_)
  rintro (e | _) past -
  · exact nofun
  refine Prog.traces_run_bind.mpr ((Prog.within_of_forall fun _ => trivial).traces.mono
    (fun _ _ _ => trivial) ?_)
  rintro (e | state) past -
  · exact nofun
  refine Prog.traces_check.mpr ?_
  cases valid : validateState state with
  | error e => exact nofun
  | ok _ =>
    refine Prog.traces_guard.mpr ⟨fun _ => nofun, fun hn => Prog.traces_ret.mpr ?_⟩
    rintro s ⟨⟩
    simp only [not_or, not_not] at hn
    exact ⟨valid, hn.2.1, hn.2.2.1⟩

/-- An import that succeeds has asked for an earlier outcome, and what it returns is checked
against the content exactly if that outcome is one of this content. -/
theorem import_checked_iff {calls : List (Event nativeSig)} {s : EntityState}
    (h : (self.importFile fuel ctx path source).Ends calls (.ok s)) :
    ∃ root dir evidence x rest, calls = started ctx path source root dir evidence x ++ rest ∧
      (Checked evidence s ↔ SameContent evidence x) := by
  have run : (self.importFile fuel ctx path source).run.Traces (fun _ _ => True)
      (fun r past => ∀ s, r = .ok s → ∃ root dir evidence x rest,
        past = started ctx path source root dir evidence x ++ rest ∧
        (Checked evidence s ↔ SameContent evidence x)) [] := by
    unfold importFile
    refine Prog.traces_check.mpr ?_
    cases ctx.validate with
    | error e => exact nofun
    | ok _ =>
      refine Prog.traces_guard.mpr ⟨fun _ => nofun, fun _ => ?_⟩
      refine Prog.traces_call.mpr ⟨trivial, fun x => ?_⟩
      cases x with
      | error e => exact nofun
      | ok root =>
        refine traces_payloadEndpoint.mpr ⟨trivial, fun x => ?_⟩
        cases x with
        | error e => exact nofun
        | ok dir =>
          refine Prog.traces_call.mpr ⟨trivial, fun x => ?_⟩
          cases x with
          | error e => exact nofun
          | ok evidence =>
            refine traces_nativeCall.mpr ?_
            cases unsent (.completedImport ctx path evidence.length evidence.digest) with
            | some e => exact nofun
            | none =>
              refine ⟨trivial, fun x => ?_⟩
              have begun : ∀ past, [] ++ [⟨.tempdir, .ok root⟩] ++
                [⟨.canonicalize root, .ok dir⟩] ++
                  [⟨.localCopy ctx source (endpoint dir), .ok evidence⟩] ++
                  [⟨.exchange (.completedImport ctx path evidence.length evidence.digest), x⟩] <+:
                    past →
                  ∃ rest, past = started ctx path source root dir evidence x ++ rest := by
                rintro _ ⟨rest, rfl⟩
                exact ⟨rest, rfl⟩
              cases hx : replied "completed" toCompleted x with
              | error e => exact nofun
              | ok prior =>
                cases prior with
                | none =>
                  refine (traces_importFresh.and Prog.traces_grow).mono (fun _ _ _ => trivial) ?_
                  rintro r past ⟨checked, grown⟩ s hs
                  obtain ⟨rest, rfl⟩ := begun past grown
                  refine ⟨root, dir, evidence, x, rest, rfl, fun _ prior hp =>
                    ?_, fun _ => checked s hs⟩
                  cases hx.symm.trans hp
                | some prior =>
                  refine Prog.traces_check.mpr ?_
                  cases valid : validateState prior with
                  | error e => exact nofun
                  | ok _ =>
                    refine Prog.traces_ret.mpr ?_
                    rintro s ⟨⟩
                    refine ⟨root, dir, evidence, x, [], rfl, fun checked prior' hp =>
                      ?_, fun same => ?_⟩
                    · cases hx.symm.trans hp
                      exact checked.2
                    · exact ⟨valid, same prior hx⟩
  exact run.ends h s rfl

end

namespace Reference

def completedReply : HsmResult Bytes := .ok (Json.reply "completed" (.entity emptyState)).utf8

theorem replied_completed : replied "completed" toCompleted completedReply = .ok
    (some emptyState) := by
  decide +kernel

def native : CurvineStorage := ⟨⟨true, true, true, true⟩⟩

def importCalls (evidence : TransferEvidence) : List (Event nativeSig) :=
  started readContext "/f" ⟨"local-managed-v1", []⟩ ["spool"] ["spool"] evidence completedReply

theorem ends_import (evidence : TransferEvidence)
    (sent : unsent (.completedImport readContext "/f" evidence.length evidence.digest) = none) :
    (native.importFile 0 readContext "/f" ⟨"local-managed-v1", []⟩).Ends (importCalls evidence)
      (.ok emptyState) := by
  unfold importFile
  refine .op (x := (.ok ["spool"] : Except IoError Dir)) rfl ?_
  refine .op (x := (.ok ["spool"] : Except IoError Dir)) rfl ?_
  refine .op (x := (.ok evidence : HsmResult TransferEvidence)) rfl ?_
  refine Runs.run_bind_ok.mpr ⟨some emptyState, _, runs_nativeCall _ sent replied_completed, ?_⟩
  exact .ret _ _

def emptyEvidence : TransferEvidence := ⟨0, ⟨"blake3", blake3Empty⟩⟩

theorem sent_empty :
    unsent (.completedImport readContext "/f" emptyEvidence.length emptyEvidence.digest) =
      none := by
  decide +kernel

theorem sent_zero :
    unsent (.completedImport readContext "/f" zeroEvidence.length zeroEvidence.digest) = none := by
  decide +kernel

theorem import_checked_empty : ∃ root dir evidence x rest,
    importCalls emptyEvidence =
      started readContext "/f" ⟨"local-managed-v1", []⟩ root dir evidence x ++ rest ∧
    (Checked evidence emptyState ↔ SameContent evidence x) :=
  import_checked_iff (ends_import emptyEvidence sent_empty)

/-- The file with one byte is answered with the state of the empty file. -/
theorem import_unchecked : ¬ ∀ calls s target evidence,
    (native.importFile 0 readContext "/f" ⟨"local-managed-v1", []⟩).Ends calls (.ok s) →
    ⟨.localCopy readContext ⟨"local-managed-v1", []⟩ target, .ok evidence⟩ ∈ calls →
    Checked evidence s := by
  intro claim
  obtain ⟨-, length, -⟩ := claim (importCalls zeroEvidence) emptyState
    (endpoint ["spool"]) zeroEvidence
    (ends_import zeroEvidence sent_zero) (by simp [importCalls, started])
  cases length

end Reference

end HsmRs
