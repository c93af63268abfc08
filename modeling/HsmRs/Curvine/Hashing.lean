import HsmRs.Curvine.Chunks

/-! # Sealing ordinary files

A closed ordinary generation is pinned, read once from its start to its end, and committed with
the evidence of what has been read. The server and the reader may answer anything.
-/

namespace HsmRs

open CurvineCrates

namespace CurvineStorage

open Native
open Prog (call stuck)

def sealToken (data : DataKey) : String :=
  "seal-" ++ data.entity.entity ++ "-" ++ toString data.generation

variable [CurvineCrates]

def readSource (received : Received) : Native (Received ⊕ Received) := do
  if ← hasRemaining then
    let bytes ← asyncRead
    if bytes = [] then throw (.integrity "short source while sealing")
    return .inl (received.update bytes)
  else return .inr received

/-- Pin and hash a closed ordinary generation. A retry reuses the source token. -/
def sealOrdinary [Crates] (fuel : Nat) (data : DataKey) : Native Unit := do
  let token := sealToken data
  let blocks ← nativeCall (.sealBegin data.entity data token) "blocks" toBlocks
  call (.parsePath blocks) (mapText .invalid)
  call (.newReader blocks) (mapText .unknown)
  let received ← Prog.loop (stuck .spin id) readSource fuel .empty
  completeReader
  let _ ← nativeCall (.sealCommit data.entity data token received.evidence) "entity" toEntity

end CurvineStorage

/-! ## What is sent -/

section

variable [CurvineCrates]

def beginOf (data : DataKey) : NativeRequest :=
  .sealBegin data.entity data (CurvineStorage.sealToken data)

def rounds (chunks : List Bytes) : List (Event nativeSig) :=
  chunks.flatMap fun c => [⟨.hasRemaining, true⟩, ⟨.asyncRead, .ok c⟩]

/-- A reader for the blocks that the server has pinned, before it has given anything. -/
def pinned (data : DataKey) (reply : Bytes) (blocks : FileBlocks) : List (Event nativeSig) :=
  [⟨.exchange (beginOf data), .ok reply⟩, ⟨.parsePath blocks, .ok ()⟩, ⟨.newReader blocks, .ok ()⟩]

/-- The source has been pinned and the chunks have been read of it, none of them empty. -/
inductive Reads (data : DataKey) (chunks : List Bytes) : List (Event nativeSig) → Prop
  | intro (reply : Bytes) (blocks : FileBlocks)
      (granted : CurvineStorage.replied "blocks" toBlocks (.ok reply) = .ok blocks)
      (full : [] ∉ chunks) : Reads data chunks (pinned data reply blocks ++ rounds chunks)

/-- The source has been read to its end, and the reader has been completed. -/
inductive ReadsWhole (data : DataKey) (chunks : List Bytes) : List (Event nativeSig) → Prop
  | intro {past : List (Event nativeSig)} (reads : Reads data chunks past) :
      ReadsWhole data chunks (past ++ [⟨.hasRemaining, false⟩] ++ [⟨.completeReader, .ok ()⟩])

def NativeOp.IsCommit : NativeOp → Prop
  | .exchange (.sealCommit _ _ _ _) => True
  | _ => False

def NativeOp.Reader : NativeOp → Prop
  | .parsePath _ | .newReader _ | .hasRemaining | .asyncRead | .completeReader => True
  | _ => False

def SealFails : Event nativeSig → HsmError → Prop
  | ⟨.exchange (.sealBegin _ _ _), x⟩, e => CurvineStorage.replied "blocks" toBlocks x = .error e
  | ⟨.parsePath _, x⟩, e => mapText .invalid x = .error e
  | ⟨.newReader _, x⟩, e | ⟨.completeReader, x⟩, e => mapText .unknown x = .error e
  | ⟨.asyncRead, x⟩, e => mapText .unknown x = .error e
  | _, _ => False

theorem NativeOp.Reader.not_commit {o : NativeOp} (h : o.Reader) : ¬ o.IsCommit := by
  cases o with
  | exchange request => exact fun _ => h
  | _ => exact fun h => h

variable [Crates] (fuel : Nat) (data : DataKey)

def commitOf (content : Bytes) : NativeRequest :=
  .sealCommit data.entity data (CurvineStorage.sealToken data) (evidenceOf content)

/-- What a seal asks, and after what: the source is pinned first, and committed with the
evidence of what has been read of it, from its start to its end. -/
inductive SealAsks (past : List (Event nativeSig)) : NativeOp → Prop
  | begins (first : past = []) : SealAsks past (.exchange (beginOf data))
  | reads {o : NativeOp} {x : HsmResult Bytes} {rest : List (Event nativeSig)} (reader : o.Reader)
      (begun : past = ⟨.exchange (beginOf data), x⟩ :: rest) (later : ∀ e ∈ rest, e.op.Reader) :
      SealAsks past o
  | commits {chunks : List Bytes} (whole : ReadsWhole data chunks past) :
      SealAsks past (.exchange (commitOf data chunks.flatten))
  | goesOn {chunks : List Bytes} (reads : Reads data chunks past) (many : chunks.length = fuel) :
      SealAsks past .spin

end

section

variable [CurvineCrates] [Crates] (data : DataKey)

/-- Why a seal ends with an error before its commit: the source cannot be asked for or what has
been read of it cannot be committed, an operation has failed, or the reader has given an empty
chunk. -/
inductive SealCause (calls : List (Event nativeSig)) : HsmError → Prop
  | notBegun {e : HsmError} (first : calls = []) (h : unsent (beginOf data) = some e) :
      SealCause calls e
  | notCommitted {chunks : List Bytes} {e : HsmError} (whole : ReadsWhole data chunks calls)
      (h : unsent (commitOf data chunks.flatten) = some e) : SealCause calls e
  | failed {past : List (Event nativeSig)} {ev : Event nativeSig} {e : HsmError}
      (last : calls = past ++ [ev]) (h : SealFails ev e) : SealCause calls e
  | short {past : List (Event nativeSig)} {chunks : List Bytes} (reads : Reads data chunks past)
      (last : calls = past ++ [⟨.hasRemaining, true⟩] ++ [⟨.asyncRead, .ok []⟩]) :
      SealCause calls (.integrity "short source while sealing")

/-- How a seal ends: as the server has answered the commit, or with an error before it. -/
inductive SealEnds : List (Event nativeSig) → HsmResult Unit → Prop
  | answered {past : List (Event nativeSig)} {chunks : List Bytes}
      (whole : ReadsWhole data chunks past)
      (x : HsmResult Bytes) :
      SealEnds (past ++ [⟨.exchange (commitOf data chunks.flatten), x⟩])
        ((CurvineStorage.replied "entity" toEntity x).map fun _ => ())
  | failed {calls : List (Event nativeSig)} {e : HsmError}
      (uncommitted : ∀ e ∈ calls, ¬ e.op.IsCommit) (cause : SealCause data calls e) :
      SealEnds calls (.error e)

end

/-! ## The evidence of a commit -/

section

variable [CurvineCrates] [Crates] {data : DataKey} {chunks : List Bytes}
  {past : List (Event nativeSig)}
  {received : Received} {fuel : Nat}

/-- What has come in is what has been read. -/
structure Received.Holds (received : Received) (chunks : List Bytes) : Prop where
  length : received.length = chunks.flatten.length
  hashed : received.hashed = chunks.flatten

omit [CurvineCrates] in
theorem Received.Holds.evidence (h : received.Holds chunks) :
    received.evidence = evidenceOf chunks.flatten := by
  rw [Received.evidence, h.length, h.hashed, evidenceOf]

omit [CurvineCrates] [Crates] in
theorem Received.Holds.update {chunk : Bytes} (h : received.Holds chunks) :
    (received.update chunk).Holds (chunks ++ [chunk]) := by
  constructor
  · simp [Received.update, h.length]
  · simp [Received.update, h.hashed]

omit [Crates] in
theorem Reads.chunk {chunk : Bytes} (h : Reads data chunks past) (hc : chunk ≠ []) :
    Reads data (chunks ++ [chunk])
      (past ++ [⟨.hasRemaining, true⟩] ++ [⟨.asyncRead, .ok chunk⟩]) := by
  obtain ⟨reply, blocks, granted, full⟩ := h
  have next : Reads data (chunks ++ [chunk])
    (pinned data reply blocks ++ rounds (chunks ++ [chunk])) :=
    .intro reply blocks granted (by simp [full, hc.symm])
  simpa [rounds] using next

omit [Crates] in
theorem Reads.begun (h : Reads data chunks past) : ∃ x rest,
    past = ⟨.exchange (beginOf data), x⟩ :: rest ∧ ∀ e ∈ rest, e.op.Reader := by
  obtain ⟨reply, blocks, -, -⟩ := h
  refine ⟨.ok reply, [⟨.parsePath blocks, .ok ()⟩, ⟨.newReader blocks, .ok ()⟩] ++
    rounds chunks, rfl, ?_⟩
  intro e he
  simp only [List.mem_append, List.mem_cons, rounds, List.mem_flatMap,
    List.not_mem_nil, or_false] at he
  rcases he with (rfl | rfl) | ⟨c, -, rfl | rfl⟩
  all_goals trivial

theorem SealAsks.later {o : NativeOp} {more : List (Event nativeSig)} (h : Reads data chunks past)
    (ho : o.Reader) (hm : ∀ e ∈ more, e.op.Reader) : SealAsks fuel data (past ++ more) o := by
  obtain ⟨x, rest, rfl, later⟩ := h.begun
  refine .reads ho rfl fun e he => ?_
  rcases List.mem_append.mp he with he | he
  · exact later e he
  · exact hm e he

omit [Crates] in
theorem Reads.uncommitted {more : List (Event nativeSig)} (h : Reads data chunks past)
    (hm : ∀ e ∈ more, e.op.Reader) : ∀ e ∈ past ++ more, ¬ e.op.IsCommit := by
  obtain ⟨x, rest, rfl, later⟩ := h.begun
  intro e he
  rcases List.mem_append.mp he with he | he
  · rcases List.mem_cons.mp he with rfl | he
    · exact fun h => h
    · exact (later e he).not_commit
  · exact (hm e he).not_commit

theorem traces_readSource (h : Reads data chunks past) (hr : received.Holds chunks) :
    (CurvineStorage.readSource received).run.Traces (SealAsks fuel data)
      (fun r past' => match r with
      | .ok (.inl received) => ∃ chunk, Reads data (chunks ++ [chunk]) past' ∧
          received.Holds (chunks ++ [chunk])
      | .ok (.inr same) => past' = past ++ [⟨.hasRemaining, false⟩] ∧ same = received
      | .error e => SealEnds data past' (.error e)) past := by
  refine Prog.traces_call.mpr ⟨?_, fun more => ?_⟩
  · simpa using SealAsks.later (o := .hasRemaining) h trivial (List.forall_mem_nil _)
  cases more with
  | false => exact Prog.traces_ret.mpr ⟨rfl, rfl⟩
  | true =>
    have one : ∀ e ∈ [(⟨.hasRemaining, true⟩ : Event nativeSig)], e.op.Reader := by
      simp [NativeOp.Reader]
    refine Prog.traces_call.mpr ⟨SealAsks.later h trivial one, fun x => ?_⟩
    have quiet : ∀ e ∈ past ++ [⟨.hasRemaining, true⟩] ++ [(⟨.asyncRead, x⟩ : Event nativeSig)],
        ¬ e.op.IsCommit := by
      rw [List.append_assoc]
      exact h.uncommitted (by simp [NativeOp.Reader])
    cases x with
    | error e => exact .failed quiet (.failed rfl rfl)
    | ok chunk =>
      refine Prog.traces_guard.mpr
        ⟨?_, fun hc => Prog.traces_ret.mpr ⟨chunk, h.chunk hc, hr.update⟩⟩
      rintro rfl
      exact .failed quiet (.short h rfl)

theorem traces_afterRounds (h : Reads data chunks past) (hr : received.Holds chunks) :
    (do
      Native.completeReader
      let _ ← CurvineStorage.nativeCall
        (.sealCommit data.entity data (CurvineStorage.sealToken data)
        received.evidence) "entity" toEntity : Native Unit).run.Traces (SealAsks fuel data)
      (fun r calls => SealEnds data calls r) (past ++ [⟨.hasRemaining, false⟩]) := by
  have last : ∀ e ∈ [(⟨.hasRemaining, false⟩ : Event nativeSig)], e.op.Reader := by
    simp [NativeOp.Reader]
  refine Prog.traces_call.mpr ⟨SealAsks.later h trivial last, fun x => ?_⟩
  have quiet : ∀ e ∈ past ++ [⟨.hasRemaining, false⟩] ++ [(⟨.completeReader, x⟩ : Event nativeSig)],
      ¬ e.op.IsCommit := by
    rw [List.append_assoc]
    exact h.uncommitted (by simp [NativeOp.Reader])
  cases x with
  | error e => exact .failed quiet (.failed rfl rfl)
  | ok _ =>
    rw [hr.evidence]
    refine traces_nativeCall.mpr ?_
    cases sent : unsent (.sealCommit data.entity data (CurvineStorage.sealToken data)
      (evidenceOf chunks.flatten)) with
    | some e => exact .failed quiet (.notCommitted (.intro h) sent)
    | none =>
      refine ⟨.commits (.intro h), fun x => ?_⟩
      have ends := SealEnds.answered (.intro h) x
      cases hx : CurvineStorage.replied "entity" toEntity x with
      | error e =>
        rw [hx] at ends
        exact ends
      | ok state =>
        rw [hx] at ends
        exact Prog.traces_ret.mpr ends

theorem traces_sealOrdinary : (CurvineStorage.sealOrdinary fuel data).run.Traces
    (SealAsks fuel data)
    (fun r calls => SealEnds data calls r) [] := by
  unfold CurvineStorage.sealOrdinary
  refine traces_nativeCall.mpr ?_
  cases sent : unsent (.sealBegin data.entity data (CurvineStorage.sealToken data)) with
  | some e => exact .failed nofun (.notBegun rfl sent)
  | none =>
  refine ⟨.begins rfl, fun x => ?_⟩
  cases hx : CurvineStorage.replied "blocks" toBlocks x with
  | error e => exact .failed (by simp [NativeOp.IsCommit]) (.failed rfl hx)
  | ok blocks =>
    obtain ⟨reply, rfl⟩ : ∃ reply, x = .ok reply := by
      cases x with
      | error e => cases hx
      | ok reply => exact ⟨reply, rfl⟩
    refine Prog.traces_call.mpr ⟨.reads trivial rfl nofun, fun y => ?_⟩
    cases y with
    | error e => exact .failed (by simp [NativeOp.IsCommit]) (.failed rfl rfl)
    | ok _ =>
    refine Prog.traces_call.mpr ⟨.reads trivial rfl (by simp [NativeOp.Reader]), fun z => ?_⟩
    cases z with
    | error e => exact .failed (by simp [NativeOp.IsCommit]) (.failed rfl rfl)
    | ok _ =>
    have start : Reads data [] (pinned data reply blocks ++ rounds []) :=
      .intro reply blocks hx List.not_mem_nil
    refine Prog.traces_run_bind.mpr (Prog.traces_loop (I := fun n received past =>
      ∃ chunks, Reads data chunks past ∧ received.Holds chunks ∧ chunks.length + n = fuel) ?_ ?_
      ⟨[], start, ⟨rfl, rfl⟩, Nat.zero_add fuel⟩)
    · rintro received past ⟨chunks, h, -, many⟩
      exact Prog.traces_op.mpr ⟨.goesOn h many, nofun⟩
    · rintro n received past ⟨chunks, h, hr, many⟩
      refine (traces_readSource h hr).mono (fun _ _ h => h) ?_
      rintro (e | received | same) past' hp
      · exact hp
      · obtain ⟨chunk, h, hr⟩ := hp
        refine ⟨chunks ++ [chunk], h, hr, ?_⟩
        rw [List.length_append, List.length_singleton]
        omega
      · obtain ⟨rfl, rfl⟩ := hp
        exact traces_afterRounds h hr

/-- A seal pins the source first, commits it at most once and as the last thing, and with the
evidence of all that the reader has given up to its end, after the reader has been completed. It
succeeds only as the server answers that commit. -/
theorem seal_sound (fuel : Nat) (data : DataKey) :
    (∀ past o, (CurvineStorage.sealOrdinary fuel data).Makes past o → SealAsks fuel data past o) ∧
      ∀ calls r, (CurvineStorage.sealOrdinary fuel data).Ends calls r → SealEnds data calls r :=
  ⟨fun _ _ h => traces_sealOrdinary.makes h, fun _ _ h => traces_sealOrdinary.ends h⟩

end

/-! ## An exact source -/

section

variable [CurvineCrates] {content : Bytes} {data : DataKey} {chunks : List Bytes}
  {past : List (Event nativeSig)}

/-- The bytes that the reader has given. -/
def bytesGiven : Event nativeSig → Bytes
  | ⟨.asyncRead, .ok bytes⟩ => bytes
  | _ => []

/-- The reader has more as long as it has not given all of the content, and then gives some of
what is left. -/
structure Gives (content : Bytes) (past : List (Event nativeSig)) (e : Event nativeSig) : Prop where
  more : ∀ b, e = ⟨.hasRemaining, b⟩ →
    (b = true ↔ (past.flatMap bytesGiven).length < content.length)
  chunk : ∀ bytes, e = ⟨.asyncRead, .ok bytes⟩ →
    bytes <+: content.drop (past.flatMap bytesGiven).length ∧
      ((past.flatMap bytesGiven).length < content.length → bytes ≠ [])

theorem rounds_concat {chunk : Bytes} : rounds (chunks ++ [chunk]) =
    rounds chunks ++ [⟨.hasRemaining, true⟩] ++ [⟨.asyncRead, .ok chunk⟩] := by simp [rounds]

theorem flatMap_rounds : (rounds chunks).flatMap bytesGiven = chunks.flatten := by
  induction chunks with
  | nil => rfl
  | cons c chunks ih => simpa [rounds, bytesGiven] using ih

theorem Reads.given (h : Reads data chunks past) : past.flatMap bytesGiven = chunks.flatten := by
  obtain ⟨reply, blocks, -, -⟩ := h
  rw [List.flatMap_append, flatMap_rounds]
  rfl

/-- What has been read of the source so far is the first part of its content. -/
theorem Reads.isPrefix (h : Reads data chunks past) (hg : Stepwise (Gives content) past) :
    chunks.flatten <+: content := by
  obtain ⟨reply, blocks, granted, full⟩ := h
  induction chunks using List.reverseRecOn with
  | nil => exact List.nil_prefix
  | append_singleton chunks chunk ih =>
    have full : [] ∉ chunks := fun h => full (List.mem_append_left _ h)
    rw [rounds_concat, ← List.append_assoc, ← List.append_assoc] at hg
    obtain ⟨hg, gives⟩ := stepwise_concat.mp hg
    have reads : Reads data chunks (pinned data reply blocks ++ rounds chunks) :=
      .intro reply blocks granted full
    have given := reads.given
    obtain ⟨rest, hr⟩ := ih full (stepwise_concat.mp hg).1
    have part := (gives.chunk chunk rfl).1
    rw [List.flatMap_append, given, ← hr] at part
    rw [List.flatten_append, ← hr]
    exact (List.prefix_append_right_inj _).mpr (by simpa [bytesGiven] using part)

theorem ReadsWhole.exact (h : ReadsWhole data chunks past) (hg : Stepwise (Gives content) past) :
    chunks.flatten = content := by
  obtain @⟨past, h⟩ := h
  obtain ⟨hg, last⟩ := stepwise_concat.mp (stepwise_concat.mp hg).1
  have ended : ¬ (past.flatMap bytesGiven).length < content.length := fun h => by
    have := (last.more false rfl).mpr h
    cases this
  rw [h.given] at ended
  exact (h.isPrefix hg).eq_of_length_le (Nat.le_of_not_lt ended)

theorem Reads.not_short (_ : Reads data chunks past)
    (hg : Stepwise (Gives content) (past ++ [⟨.hasRemaining, true⟩] ++ [⟨.asyncRead, .ok []⟩])) :
    False := by
  obtain ⟨hg, last⟩ := stepwise_concat.mp hg
  have more := ((stepwise_concat.mp hg).2.more true rfl).mp rfl
  refine (last.chunk [] rfl).2 ?_ rfl
  rwa [List.flatMap_append, show [(⟨.hasRemaining, true⟩ : Event nativeSig)].flatMap
    bytesGiven = [] from rfl,
    List.append_nil]

omit [CurvineCrates] in
theorem length_le_flatten (h : [] ∉ chunks) : chunks.length ≤ chunks.flatten.length := by
  induction chunks with
  | nil => exact Nat.le_refl _
  | cons c chunks ih =>
    rw [List.mem_cons, not_or] at h
    have := ih h.2
    have := List.length_pos_iff.mpr (Ne.symm h.1)
    rw [List.flatten_cons, List.length_append, List.length_cons]
    omega

theorem Reads.bounded (h : Reads data chunks past) (hg : Stepwise (Gives content) past) :
    chunks.length ≤ content.length := by
  have := (h.isPrefix hg).length_le
  obtain ⟨reply, blocks, -, full⟩ := h
  exact (length_le_flatten full).trans this

variable [Crates]

/-- A seal of an exact source ends as the server has answered the commit of its content, or as an
operation has failed or one of its two requests could not be sent. -/
inductive SealedAs (data : DataKey) (content : Bytes) (calls : List (Event nativeSig)) :
    HsmResult Unit → Prop
  | answered {past : List (Event nativeSig)} (x : HsmResult Bytes)
      (last : calls = past ++ [⟨.exchange (commitOf data content), x⟩]) :
      SealedAs data content calls ((CurvineStorage.replied "entity" toEntity x).map fun _ => ())
  | failed {e : HsmError} {ev : Event nativeSig} (mem : ev ∈ calls) (h : SealFails ev e) :
      SealedAs data content calls (.error e)
  | unsent {request : NativeRequest} {e : HsmError}
      (mem : request = beginOf data ∨ request = commitOf data content)
      (h : HsmRs.unsent request = some e) : SealedAs data content calls (.error e)

/-- Whatever the chunks in which a source gives its content, the seal comes to an end and commits
the length and digest of the whole content. -/
theorem seal_round_trip {fuel : Nat} {data : DataKey} {content : Bytes}
    {calls : List (Event nativeSig)}
    (exact : Stepwise (Gives content) calls) :
    (∀ r, (CurvineStorage.sealOrdinary fuel data).Ends calls r → SealedAs data content calls r) ∧
      ((CurvineStorage.sealOrdinary fuel data).Makes calls .spin → fuel ≤ content.length) := by
  constructor
  · intro r hr
    rcases traces_sealOrdinary.ends hr with ⟨whole, x⟩ | ⟨-, cause⟩
    · rw [whole.exact (stepwise_concat.mp exact).1]
      exact .answered x rfl
    · cases cause with
      | notBegun _ h => exact .unsent (.inl rfl) h
      | notCommitted whole h => exact .unsent (.inr (whole.exact exact ▸ rfl)) h
      | failed last h =>
          exact .failed (last ▸ List.mem_append_right _ (List.mem_singleton.mpr rfl)) h
      | short reads last => exact (reads.not_short (last ▸ exact)).elim
  · intro hm
    cases traces_sealOrdinary.makes hm with
    | reads reader => exact reader.elim
    | goesOn reads many => exact many ▸ reads.bounded exact

end

namespace Pinned

open Reference

def blocksReply : Reference.Json := .reply "blocks" (.obj [("path", .str "/f")])

def entityReply : Reference.Json := .reply "entity" (.entity emptyState)

scoped instance : DecidableEq CurvineCrates.FileBlocks := inferInstanceAs (DecidableEq String)

def calls : List (Event nativeSig) :=
  [⟨.exchange (beginOf (Reference.file 1)), .ok blocksReply.utf8⟩, ⟨.parsePath "/f", .ok ()⟩,
    ⟨.newReader "/f", .ok ()⟩, ⟨.hasRemaining, true⟩, ⟨.asyncRead, .ok [0]⟩, ⟨.hasRemaining, false⟩,
    ⟨.completeReader, .ok ()⟩, ⟨.exchange (commitOf (Reference.file 1) [0]), .ok entityReply.utf8⟩]

theorem calls_sent : unsent (beginOf (Reference.file 1)) = none ∧
    unsent (commitOf (Reference.file 1) [0]) = none := by decide +kernel

theorem calls_answered :
    CurvineStorage.replied "blocks" CurvineCrates.toBlocks (.ok blocksReply.utf8) = .ok "/f" ∧
      CurvineStorage.replied "entity" CurvineCrates.toEntity (.ok entityReply.utf8) =
        .ok Reference.emptyState := by decide +kernel

theorem calls_end : (CurvineStorage.sealOrdinary 2 (Reference.file 1)).Ends calls (.ok ()) := by
  unfold CurvineStorage.sealOrdinary
  refine Runs.run_bind_ok.mpr ⟨_, _, runs_nativeCall [] calls_sent.1 calls_answered.1, ?_⟩
  refine .op (x := (.ok () : Except String Unit)) rfl ?_
  refine .op (x := (.ok () : Except String Unit)) rfl ?_
  refine .op (x := true) rfl ?_
  refine .op (x := (.ok [0] : Except String Bytes)) rfl ?_
  refine .op (x := false) rfl ?_
  refine .op (x := (.ok () : Except String Unit)) rfl ?_
  exact Runs.run_bind_ok.mpr ⟨_, _, runs_nativeCall _ calls_sent.2 calls_answered.2, .ret _ _⟩

theorem calls_give : Stepwise (Gives [0]) calls := by
  rw [show calls = [] ++ [_] ++ [_] ++ [_] ++ [_] ++ [_] ++ [_] ++ [_] ++ [_] from rfl]
  have other : ∀ (past : List (Event nativeSig)) (e : Event nativeSig),
    (∀ x, e ≠ ⟨.hasRemaining, x⟩) →
      (∀ x, e ≠ ⟨.asyncRead, x⟩) → Gives [0] past e := fun _ _ h h' =>
    ⟨fun _ he => (h _ he).elim, fun _ he => (h' _ he).elim⟩
  simp only [stepwise_concat]
  refine ⟨⟨⟨⟨⟨⟨⟨⟨stepwise_nil, ?_⟩, ?_⟩, ?_⟩, ?_⟩, ?_⟩, ?_⟩, ?_⟩, ?_⟩
  · exact other _ _ (by simp) (by simp)
  · exact other _ _ (by simp) (by simp)
  · exact other _ _ (by simp) (by simp)
  · exact ⟨by simp [bytesGiven], by simp⟩
  · exact ⟨by simp, by simp [bytesGiven]⟩
  · exact ⟨by simp [bytesGiven], by simp⟩
  · exact other _ _ (by simp) (by simp)
  · exact other _ _ (by simp) (by simp)

theorem seal_round_trip_zero : SealedAs (Reference.file 1) [0] calls (.ok ()) :=
  (seal_round_trip calls_give).1 _ calls_end

end Pinned

end HsmRs
