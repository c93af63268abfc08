import HsmRs.Curvine.Reading

/-! # Chunked transfer

Upload and download against a local file and a Worker that may split the content into any
chunks. Both loops go through the content once, from its start on, and come to its end.
-/

namespace HsmRs

open CurvineCrates Native

section

variable [CurvineCrates]

/-! ## What a transfer has done -/

def bytesRead : Event nativeSig → Bytes
  | ⟨.readData, .ok bytes⟩ => bytes
  | _ => []

def bytesWritten : Event nativeSig → Bytes
  | ⟨.writeAll bytes, _⟩ => bytes
  | _ => []

def workerWrite : Event nativeSig → Option (Nat × Bytes)
  | ⟨.worker _ (.write offset bytes), _⟩ => some (offset, bytes)
  | _ => none

def writes (calls : List (Event nativeSig)) : List (Nat × Bytes) := calls.filterMap workerWrite

def carried (ws : List (Nat × Bytes)) : Bytes := ws.flatMap Prod.snd

/-- A write of at most one chunk that starts where the writes before it have ended. -/
def NextWrite (before : List (Nat × Bytes)) (w : Nat × Bytes) : Prop :=
  w.1 = (carried before).length ∧ w.2.length ≤ chunkBytes

def NativeOp.Verifies : NativeOp → Prop
  | .worker _ .verify => True
  | _ => False

/-! ## The surroundings -/

/-- The local file holds the content: a read gives some of what is left of it, at most one
chunk, and nothing only at the end. -/
def ReadsFile (content : Bytes) (past : List (Event nativeSig)) (e : Event nativeSig) : Prop :=
  ∀ bytes, e = ⟨.readData, .ok bytes⟩ →
    bytes <+: content.drop (past.flatMap bytesRead).length ∧ bytes.length ≤ chunkBytes ∧
      (bytes = [] → content.length ≤ (past.flatMap bytesRead).length)

/-- The Worker holds the bytes: a Read gives some of them from its offset on, at most one chunk,
and nothing only at the end. -/
def Serves (stored : Bytes) (_ : List (Event nativeSig)) (e : Event nativeSig) : Prop :=
  ∀ endpoint offset length x, e = ⟨.worker endpoint (.read offset length), x⟩ →
    ∃ bytes, x = .ok (.bytes bytes) ∧ bytes <+: stored.drop offset ∧ bytes.length ≤ chunkBytes ∧
      (bytes = [] → stored.length ≤ offset)

/-- The operation has not failed: a write is acknowledged, and a Verify finds what is expected. -/
def Smooth (expected : TransferEvidence) : Event nativeSig → Prop
  | ⟨.readData, x⟩ => ∃ bytes, x = .ok bytes
  | ⟨.openData _, x⟩ | ⟨.createData _, x⟩ | ⟨.writeAll _, x⟩ | ⟨.syncAll, x⟩ => x = .ok ()
  | ⟨.worker _ (.write _ _), x⟩ => x = .ok .done
  | ⟨.worker _ .verify, x⟩ => ∃ actual, x = .ok (.verified actual) ∧ portable actual = .ok expected
  | _ => True

/-- The bytes of an allocation after a write at an offset of it. -/
def writeAt (stored : Bytes) (w : Nat × Bytes) : Bytes :=
  stored.take w.1 ++ List.replicate (w.1 - stored.length) 0 ++ w.2 ++ stored.drop (w.1 + w.2.length)

/-- What a new allocation holds after the writes. -/
def storedBy (ws : List (Nat × Bytes)) : Bytes := ws.foldl writeAt []

theorem storedBy_eq_carried {ws : List (Nat × Bytes)} (h : Stepwise NextWrite ws) :
    storedBy ws = carried ws := by
  induction ws using List.reverseRecOn with
  | nil => rfl
  | append_singleton ws w ih =>
    obtain ⟨h, start, -⟩ := stepwise_concat.mp h
    have hs : storedBy (ws ++ [w]) = writeAt (carried ws) w := by
      rw [storedBy, List.foldl_append]
      exact congrArg (writeAt · w) (ih h)
    have hc : carried (ws ++ [w]) = carried ws ++ w.2 := by simp [carried]
    rw [hs, hc, writeAt, start]
    simp

omit [CurvineCrates] in
theorem take_append_chunk {content chunk : Bytes} {n : Nat} (h : chunk <+: content.drop n) :
    content.take n ++ chunk = content.take (n + chunk.length) := by
  obtain ⟨rest, h⟩ := h
  rw [List.take_add, ← h, List.take_left']
  rfl

omit [CurvineCrates] in
theorem length_chunk {content chunk : Bytes} {n : Nat} (hn : n ≤ content.length)
    (h : chunk <+: content.drop n) : n + chunk.length ≤ content.length := by
  have := h.length_le
  rw [List.length_drop] at this
  omega

variable {α β : Type} {A : List (Event nativeSig) → Event nativeSig → Prop}
  {C : List (Event nativeSig) → NativeOp → Prop} {past : List (Event nativeSig)} {f : α → Native β}
  {Q : HsmResult β → List (Event nativeSig) → Prop}

theorem traces_step {o : NativeOp} {g : o.Ans → HsmResult α} (hC : Stepwise A past → C past o)
    (answered : Stepwise A past → ∀ x, A past ⟨o, x⟩ → match g x with
      | .ok a => (f a).run.Traces (fun past o => Stepwise A past → C past o)
        (fun r past => Stepwise A past → Q r past) (past ++ [⟨o, x⟩])
      | .error e => Q (.error e) (past ++ [⟨o, x⟩])) :
    (Prog.call o g >>= f).run.Traces (fun past o => Stepwise A past → C past o)
      (fun r past => Stepwise A past → Q r past) past := by
  refine Prog.traces_call.mpr ⟨hC, fun x => ?_⟩
  cases hx : g x with
  | error e =>
    intro h
    obtain ⟨h, ha⟩ := stepwise_concat.mp h
    have := answered h x ha
    rw [hx] at this
    exact this
  | ok a =>
    refine Prog.traces_assume fun h => ?_
    obtain ⟨h, ha⟩ := stepwise_concat.mp h
    have := answered h x ha
    rw [hx] at this
    exact this

end

/-! ## Download -/

section

variable [CurvineCrates] [Crates] {stored : Bytes} {source : DataEndpoint} {root : Dir} {fuel : Nat}

omit [CurvineCrates] in
def evidenceOf (content : Bytes) : TransferEvidence := ⟨content.length, digestOf content⟩

def Downloads (stored : Bytes) (source : DataEndpoint) (calls : List (Event nativeSig)) :
    HsmResult TransferEvidence → Prop
  | .ok e => calls.flatMap bytesWritten = stored ∧ e = evidenceOf stored
  | .error _ => (∃ e, CurvineCrates.endpoint source.capability = .error e) ∨
      ∃ e ∈ calls, ¬ Smooth (evidenceOf stored) e

structure Received.Of (received : Received) (stored : Bytes) (calls : List (Event nativeSig)) :
    Prop where
  within : received.length ≤ stored.length
  hashed : received.hashed = stored.take received.length
  written : calls.flatMap bytesWritten = stored.take received.length

omit [Crates] in
theorem failed {expected : TransferEvidence} {calls : List (Event nativeSig)} {e : Event nativeSig}
    (h : ¬ Smooth expected e) : ∃ e' ∈ calls ++ [e], ¬ Smooth expected e' := ⟨e, by simp, h⟩

namespace CurvineDataMover

theorem traces_readWorker {worker : CurvineCrates.Endpoint} {received : Received}
    {past : List (Event nativeSig)} {n : Nat} (h : received.Of stored past)
    (hn : fuel ≤ n + 1 + received.length) :
    (readWorker worker received).run.Traces
      (fun past o => Stepwise (Serves stored) past → o = .spin → fuel ≤ stored.length)
      (fun r past => Stepwise (Serves stored) past → match r with
        | .ok (.inl received) => received.Of stored past ∧ fuel ≤ n + received.length
        | .ok (.inr received) => received.Of stored past ∧ received.length = stored.length
        | .error _ => ∃ e ∈ past, ¬ Smooth (evidenceOf stored) e) past := by
  refine traces_step (fun _ h => (nomatch h)) fun _ x served => ?_
  obtain ⟨bytes, rfl, part, small, last⟩ := served _ _ _ _ rfl
  dsimp only
  have hw : (past ++ [(⟨.worker worker (.read received.length chunkBytes), .ok (.bytes bytes)⟩ :
      Event nativeSig)]).flatMap bytesWritten = stored.take received.length := by
    simp [bytesWritten, h.written]
  by_cases hb : bytes = []
  · rw [if_pos hb]
    refine Prog.traces_ret.mpr fun _ => ⟨⟨h.within, h.hashed, hw⟩, ?_⟩
    exact Nat.le_antisymm h.within (last hb)
  · rw [if_neg hb, if_neg (by omega)]
    refine traces_step (fun _ h => (nomatch h)) fun _ x _ => ?_
    cases x with
    | error e =>
      dsimp only [Except.mapError]
      exact failed (e := ⟨.writeAll bytes, .error e⟩) fun h => (nomatch h)
    | ok _ =>
      refine Prog.traces_ret.mpr fun _ => ⟨⟨length_chunk h.within part, ?_, ?_⟩, ?_⟩
      · exact (congrArg (· ++ bytes) h.hashed).trans (take_append_chunk part)
      · rw [List.flatMap_append, hw]
        simpa [bytesWritten, Received.update] using take_append_chunk part
      · have := List.length_pos_iff.mpr hb
        change fuel ≤ n + (received.length + bytes.length)
        omega

theorem traces_downloadWorker : (downloadWorker fuel source root).run.Traces
    (fun past o => Stepwise (Serves stored) past → o = .spin → fuel ≤ stored.length)
    (fun r past => Stepwise (Serves stored) past → Downloads stored source past r) [] := by
  unfold downloadWorker
  refine Prog.traces_check.mpr ?_
  cases hc : CurvineCrates.endpoint source.capability with
  | error e => exact fun _ => .inl ⟨e, hc⟩
  | ok worker =>
    refine traces_step (fun _ h => (nomatch h)) fun _ x _ => ?_
    cases x with
    | error e => exact .inr (failed (e := ⟨.createData root, .error e⟩) fun h => (nomatch h))
    | ok _ =>
      refine Prog.traces_bind_assume ?_
      refine (Prog.traces_loop_assume
        (I := fun n received past => received.Of stored past ∧ fuel ≤ n + received.length) ?_ ?_ ?_)
      · intro received past _ h
        refine Prog.traces_op.mpr ⟨fun _ _ => ?_, nofun⟩
        have := h.1.within
        omega
      · intro n received past _ h
        refine (traces_readWorker h.1 h.2).mono (fun _ _ h => h) ?_
        rintro (e | received | received) past h hp
        · exact .inr (h hp)
        · exact h hp
        · obtain ⟨⟨-, hashed, written⟩, whole⟩ := h hp
          rw [whole, List.take_length] at hashed written
          refine traces_step (fun _ h => (nomatch h)) fun _ x _ => ?_
          cases x with
          | error e => exact .inr (failed (e := ⟨.syncAll, .error e⟩) fun h => (nomatch h))
          | ok _ =>
            refine Prog.traces_ret.mpr fun _ => ⟨by simpa [bytesWritten] using written, ?_⟩
            rw [Received.evidence, whole, hashed, evidenceOf]
      · exact ⟨⟨Nat.zero_le _, rfl, rfl⟩, by simp [Received.empty]⟩

end CurvineDataMover

end

/-! ## Upload -/

section

variable [CurvineCrates] {content : Bytes} {destination : DataEndpoint} {root : Dir} {fuel : Nat}
  {expected : TransferEvidence} {past : List (Event nativeSig)}

/-- Contiguous writes of the first part of the content, and no Verify. -/
structure Writing (content : Bytes) (calls : List (Event nativeSig)) : Prop where
  contiguous : Stepwise NextWrite (writes calls)
  part : carried (writes calls) <+: content
  unverified : ∀ e ∈ calls, ¬ e.op.Verifies

/-- An upload has failed on the way, or it has written the content and then asks for one Verify,
which decides about its success. -/
inductive Uploads (content : Bytes) (destination : DataEndpoint) (expected : TransferEvidence) :
    List (Event nativeSig) → HsmResult TransferEvidence → Prop
  | failed {calls : List (Event nativeSig)} {error : HsmError} : Writing content calls →
      ((∃ e, CurvineCrates.endpoint destination.capability = .error e) ∨
        ∃ e ∈ calls, ¬ Smooth expected e) →
      Uploads content destination expected calls (.error error)
  | verified {calls : List (Event nativeSig)} {worker : CurvineCrates.Endpoint}
      {x : HsmResult WorkerReply} {r : HsmResult TransferEvidence} : Writing content calls →
      writes calls ≠ [] → carried (writes calls) = content →
      (∀ e, r = .ok e ↔ e = expected ∧ Smooth expected ⟨.worker worker .verify, x⟩) →
      Uploads content destination expected (calls ++ [⟨.worker worker .verify, x⟩]) r

theorem writes_concat {e : Event nativeSig} :
    writes (past ++ [e]) = writes past ++ (workerWrite e).toList := by
  cases h : workerWrite e <;> simp [writes, h]

theorem Writing.step {e : Event nativeSig} (h : Writing content past) (he : workerWrite e = none)
    (hv : ¬ e.op.Verifies) : Writing content (past ++ [e]) := by
  have hw : writes (past ++ [e]) = writes past := by rw [writes_concat, he]; simp
  refine ⟨hw ▸ h.contiguous, hw ▸ h.part, fun e' he' => ?_⟩
  rcases List.mem_append.mp he' with he' | he'
  · exact h.unverified e' he'
  · exact List.mem_singleton.mp he' ▸ hv

structure Sent (offset : Nat) (content : Bytes) (calls : List (Event nativeSig)) : Prop where
  within : offset ≤ content.length
  read : calls.flatMap bytesRead = content.take offset
  sent : carried (writes calls) = content.take offset
  writing : Writing content calls

theorem Sent.write {offset : Nat} {bytes : Bytes} (worker : CurvineCrates.Endpoint)
    (x : HsmResult WorkerReply) (h : carried (writes past) = content.take offset)
    (hw : Writing content past) (within : offset ≤ content.length)
    (part : bytes <+: content.drop offset) (small : bytes.length ≤ chunkBytes) :
    carried (writes (past ++ [⟨.worker worker (.write offset bytes), x⟩])) =
      content.take (offset + bytes.length) ∧
    Writing content (past ++ [⟨.worker worker (.write offset bytes), x⟩]) := by
  have hs : writes (past ++ [⟨.worker worker (.write offset bytes), x⟩]) = writes past ++
    [(offset, bytes)] := by
    rw [writes_concat]
    rfl
  have hc : carried (writes (past ++ [⟨.worker worker (.write offset bytes), x⟩])) =
      content.take (offset + bytes.length) := by
    rw [hs, ← take_append_chunk part, ← h]
    simp [carried]
  refine ⟨hc, ⟨hs ▸ stepwise_concat.mpr ⟨hw.contiguous, ?_, small⟩, ?_, fun e he => ?_⟩⟩
  · rw [h, List.length_take]
    exact (Nat.min_eq_left within).symm
  · rw [hc]
    exact List.take_prefix _ _
  · rcases List.mem_append.mp he with he | he
    · exact hw.unverified e he
    · rw [List.mem_singleton.mp he]
      exact id

namespace CurvineDataMover

theorem traces_verify {worker : CurvineCrates.Endpoint} (hw : Writing content past)
    (nonempty : writes past ≠ []) (whole : carried (writes past) = content) :
    (verify worker expected).run.Traces
      (fun past o => Stepwise (ReadsFile content) past → o = .spin → fuel ≤ content.length)
      (fun r past => Stepwise (ReadsFile content) past →
        Uploads content destination expected past r) past := by
  have verified : ∀ {x : HsmResult WorkerReply} {r : HsmResult TransferEvidence},
      (∀ e, r = .ok e ↔ e = expected ∧ Smooth expected ⟨.worker worker .verify, x⟩) →
      Uploads content destination expected (past ++ [⟨.worker worker .verify, x⟩]) r :=
    .verified hw nonempty whole
  refine traces_step (fun _ h => (nomatch h)) fun _ x _ => ?_
  rcases x with e | reply
  · exact verified fun e => ⟨fun h => (nomatch h), fun ⟨_, _, h, _⟩ => (nomatch h)⟩
  · cases reply with
    | verified actual =>
      refine Prog.traces_check.mpr ?_
      cases hp : portable actual with
      | error e =>
        refine fun _ => verified fun e => ⟨fun h => (nomatch h), ?_⟩
        rintro ⟨-, _, h, ha⟩
        cases h
        exact nomatch hp.symm.trans ha
      | ok evidence =>
        refine Prog.traces_guard.mpr ⟨fun hne _ => verified fun e => ⟨fun h => (nomatch h), ?_⟩,
          fun heq => Prog.traces_ret.mpr fun _ => verified fun e => ⟨?_, ?_⟩⟩
        · rintro ⟨-, _, h, ha⟩
          cases h
          exact (hne (Except.ok.inj (hp.symm.trans ha))).elim
        · rintro ⟨⟩
          rw [not_not] at heq
          exact ⟨heq, actual, rfl, heq ▸ hp⟩
        · rintro ⟨rfl, _⟩
          rw [not_not] at heq
          rw [heq]
    | _ =>
      refine Prog.traces_ret.mpr fun _ => verified fun e => ⟨fun h => (nomatch h), ?_⟩
      rintro ⟨-, _, h, -⟩
      cases h

theorem traces_writeWorker (expected : TransferEvidence) {worker : CurvineCrates.Endpoint}
    {offset n : Nat} (h : Sent offset content past) (hn : fuel ≤ n + 1 + offset) :
    (writeWorker worker offset).run.Traces
      (fun past o => Stepwise (ReadsFile content) past → o = .spin → fuel ≤ content.length)
      (fun r past => Stepwise (ReadsFile content) past → match r with
        | .ok (.inl offset) => Sent offset content past ∧ fuel ≤ n + offset
        | .ok (.inr offset) => Sent offset content past ∧ offset = content.length
        | .error _ => Writing content past ∧ ∃ e ∈ past, ¬ Smooth expected e) past := by
  refine traces_step (fun _ h => (nomatch h)) fun _ x served => ?_
  have reading : Writing content (past ++ [⟨.readData, x⟩]) := h.writing.step rfl id
  cases x with
  | error e => exact ⟨reading, failed (e := ⟨.readData, .error e⟩) fun ⟨_, h⟩ => (nomatch h)⟩
  | ok bytes =>
    obtain ⟨part, small, last⟩ := served bytes rfl
    have start : (past.flatMap bytesRead).length = offset := by
      rw [h.read, List.length_take, Nat.min_eq_left h.within]
    rw [start] at part last
    have read : (past ++ [(⟨.readData, .ok bytes⟩ : Event nativeSig)]).flatMap bytesRead =
        content.take (offset + bytes.length) := by
      rw [← take_append_chunk part, ← h.read]
      simp [bytesRead]
    have sent : carried (writes (past ++ [⟨.readData, .ok bytes⟩])) = content.take offset := by
      rw [writes_concat, ← h.sent]
      simp [workerWrite]
    dsimp only [Except.mapError]
    by_cases hb : bytes = []
    · subst hb
      exact Prog.traces_ret.mpr fun _ => ⟨⟨h.within, read, sent, reading⟩,
        Nat.le_antisymm h.within (last rfl)⟩
    · rw [if_neg hb]
      refine traces_step (fun _ h => (nomatch h)) fun _ x _ => ?_
      obtain ⟨sent, writing⟩ := Sent.write worker x sent reading h.within part small
      have refused : x ≠ .ok .done → ∃ e ∈ past ++ [⟨.readData, .ok bytes⟩] ++
          [⟨.worker worker (.write offset bytes), x⟩], ¬ Smooth expected e :=
        fun hx => failed (e := ⟨.worker worker (.write offset bytes), x⟩) hx
      rcases x with e | reply
      · exact ⟨writing, refused nofun⟩
      · cases reply with
        | done =>
          refine Prog.traces_ret.mpr fun _ => ⟨⟨length_chunk h.within part, ?_, sent, writing⟩, ?_⟩
          · rw [List.flatMap_append, read]
            simp [bytesRead]
          · have := List.length_pos_iff.mpr hb
            omega
        | _ => exact Prog.traces_ret.mpr fun _ => ⟨writing, refused nofun⟩

theorem traces_upload : (upload fuel destination root expected).run.Traces
    (fun past o => Stepwise (ReadsFile content) past → o = .spin → fuel ≤ content.length)
    (fun r past => Stepwise (ReadsFile content) past →
      Uploads content destination expected past r) [] := by
  have start : Writing content [] := ⟨stepwise_nil, List.nil_prefix, nofun⟩
  refine Prog.traces_check.mpr ?_
  cases hc : CurvineCrates.endpoint destination.capability with
  | error e => exact fun _ => .failed start (.inl ⟨e, hc⟩)
  | ok worker =>
    refine traces_step (fun _ h => (nomatch h)) fun _ x _ => ?_
    have opened : Writing content ([] ++ [⟨.openData root, x⟩]) := start.step rfl id
    cases x with
    | error e =>
      exact .failed opened (.inr (failed (e := ⟨.openData root, .error e⟩) fun h => (nomatch h)))
    | ok _ =>
      refine Prog.traces_bind_assume ?_
      refine (Prog.traces_loop_assume
        (I := fun n offset past => Sent offset content past ∧ fuel ≤ n + offset) ?_ ?_ ?_)
      · intro offset past _ h
        refine Prog.traces_op.mpr ⟨fun _ _ => ?_, nofun⟩
        have := h.1.within
        omega
      · intro n offset past _ h
        refine (traces_writeWorker expected h.1 h.2).mono (fun _ _ h => h) ?_
        rintro (e | offset | offset) past h hp
        · exact .failed (h hp).1 (.inr (h hp).2)
        · exact h hp
        · obtain ⟨⟨-, read, sent, writing⟩, whole⟩ := h hp
          rw [whole, List.take_length] at sent
          dsimp only
          by_cases h0 : offset = 0
          · -- nothing has been written yet
            rw [if_pos h0]
            have hz : content = [] := List.eq_nil_of_length_eq_zero (whole.symm.trans h0)
            refine traces_step (fun _ h => (nomatch h)) fun _ x _ => ?_
            have sent : carried (writes past) = content.take 0 := sent.trans hz
            obtain ⟨sent, writing⟩ := @Sent.write _ content past 0 [] worker x sent writing
              (Nat.zero_le _) List.nil_prefix (Nat.zero_le _)
            rcases x with e | reply
            · exact .failed writing
                (.inr (failed (e := ⟨.worker worker (.write 0 []), .error e⟩) fun h => (nomatch h)))
            · refine traces_verify writing ?_ (sent.trans hz.symm)
              rw [writes_concat]
              simp [workerWrite]
          · rw [if_neg h0]
            refine traces_verify writing ?_ sent
            rintro hw
            rw [hw] at sent
            exact h0 (whole.trans (congrArg List.length sent.symm))
      · exact ⟨⟨Nat.zero_le _, rfl, rfl, opened⟩, by simp⟩

end CurvineDataMover

end

section

variable [CurvineCrates] [Crates]

open CurvineDataMover

/-- An upload writes the content in contiguous chunks and has it verified, a download gives the
stored bytes and their evidence, and both come to an end. What has been uploaded is downloaded. -/
theorem chunks_round_trip :
    (∀ fuel destination root expected content past,
      (∀ calls r, (upload fuel destination root expected).Ends calls r →
        Stepwise (ReadsFile content) calls → Uploads content destination expected calls r) ∧
      ((upload fuel destination root expected).Makes past .spin →
        Stepwise (ReadsFile content) past →
        fuel ≤ content.length)) ∧
    (∀ fuel source root stored past,
      (∀ calls r, (downloadWorker fuel source root).Ends calls r → Stepwise (Serves stored) calls →
        Downloads stored source calls r) ∧
      ((downloadWorker fuel source root).Makes past .spin → Stepwise (Serves stored) past →
        fuel ≤ stored.length)) ∧
    ∀ fuel destination root expected content calls evidence,
      (upload fuel destination root expected).Ends calls (.ok evidence) →
      Stepwise (ReadsFile content) calls →
      (∀ worker actual, ⟨.worker worker .verify, .ok (.verified actual)⟩ ∈ calls →
        portable actual = .ok (evidenceOf (storedBy (writes calls)))) →
      storedBy (writes calls) = content ∧ evidence = evidenceOf content ∧
      ∀ fuel source root calls' evidence',
        (downloadWorker fuel source root).Ends calls' (.ok evidence') →
        Stepwise (Serves (storedBy (writes calls))) calls' →
        calls'.flatMap bytesWritten = content ∧ evidence' = evidence := by
  refine ⟨fun fuel destination root expected content past =>
    ⟨fun calls r he hs => ?_, fun hm hs => ?_⟩,
    fun fuel source root stored past => ⟨fun calls r he hs => ?_, fun hm hs => ?_⟩, ?_⟩
  · exact traces_upload.ends he hs
  · exact (@traces_upload _ content destination root fuel expected).makes hm hs rfl
  · exact traces_downloadWorker.ends he hs
  · exact (@traces_downloadWorker _ _ stored source root fuel).makes hm hs rfl
  · intro fuel destination root expected content calls evidence he hs honest
    have uploads : Uploads content destination expected calls (.ok evidence) :=
      traces_upload.ends he hs
    generalize hr : (.ok evidence : HsmResult TransferEvidence) = r at uploads
    cases uploads with
    | failed => cases hr
    | @verified before worker x r writing _ whole decides =>
      obtain ⟨rfl, actual, rfl, agrees⟩ := (decides evidence).mp hr.symm
      have hw : writes (before ++ [⟨.worker worker .verify, .ok (.verified actual)⟩]) =
        writes before := by
        rw [writes_concat]
        simp [workerWrite]
      have stored : storedBy (writes before) = content :=
        (storedBy_eq_carried writing.contiguous).trans whole
      have honestly := honest worker actual (by simp)
      rw [hw, stored] at honestly ⊢
      have evident : evidence = evidenceOf content := Except.ok.inj (agrees.symm.trans honestly)
      refine ⟨rfl, evident, fun fuel source root calls' evidence' he hs => ?_⟩
      obtain ⟨written, rfl⟩ := traces_downloadWorker.ends he hs
      exact ⟨written, evident.symm⟩

end

namespace Reference

open CurvineDataMover

def zeroEvidence : TransferEvidence := ⟨1, ⟨"blake3", blake3Zero⟩⟩

def uploadCalls : List (Event nativeSig) :=
  [⟨.openData ["spool"], .ok ()⟩, ⟨.readData, .ok [0]⟩, ⟨.worker worker (.write 0 [0]), .ok .done⟩,
    ⟨.readData, .ok []⟩, ⟨.worker worker .verify, .ok (.verified zeroEvidence)⟩]

def downloadCalls : List (Event nativeSig) :=
  [⟨.createData ["spool"], .ok ()⟩, ⟨.worker worker (.read 0 (1024 * 1024)), .ok (.bytes [0])⟩,
    ⟨.writeAll [0], .ok ()⟩, ⟨.worker worker (.read 1 (1024 * 1024)), .ok (.bytes [])⟩,
    ⟨.syncAll, .ok ()⟩]

theorem endpoint_worker : CurvineCrates.endpoint worker.utf8 = .ok worker := by
  simp [CurvineCrates.endpoint, parse, knownReplies]

theorem uploads :
    (upload 2 ⟨"curvine-recall-v1", worker.utf8⟩ ["spool"] zeroEvidence).Ends uploadCalls
    (.ok zeroEvidence) := by
  unfold upload
  rw [endpoint_worker]
  refine .op (x := (.ok () : Except IoError Unit)) rfl ?_
  refine .op (x := (.ok [0] : Except IoError Bytes)) rfl ?_
  refine .op (x := (.ok .done : HsmResult WorkerReply)) rfl ?_
  refine .op (x := (.ok [] : Except IoError Bytes)) rfl ?_
  refine .op (x := (.ok (.verified zeroEvidence) : HsmResult WorkerReply)) rfl ?_
  exact .ret _ _

theorem downloads : (downloadWorker 2 ⟨"curvine-view-v1", worker.utf8⟩ ["spool"]).Ends downloadCalls
    (.ok zeroEvidence) := by
  unfold downloadWorker
  rw [endpoint_worker]
  refine .op (x := (.ok () : Except IoError Unit)) rfl ?_
  refine .op (x := (.ok (.bytes [0]) : HsmResult WorkerReply)) rfl ?_
  refine .op (x := (.ok () : Except IoError Unit)) rfl ?_
  refine .op (x := (.ok (.bytes []) : HsmResult WorkerReply)) rfl ?_
  refine .op (x := (.ok () : Except IoError Unit)) rfl ?_
  exact .ret _ _

theorem reads_zero : Stepwise (ReadsFile [0]) uploadCalls := by
  have other : ∀ (past : List (Event nativeSig)) (e : Event nativeSig), (∀ x, e ≠ ⟨.readData, x⟩) →
      ReadsFile [0] past e := fun _ _ h bytes he => (h _ he).elim
  rw [show uploadCalls = [] ++ [_] ++ [_] ++ [_] ++ [_] ++ [_] from rfl]
  simp only [stepwise_concat]
  refine ⟨⟨⟨⟨⟨stepwise_nil, other _ _ nofun⟩, ?_⟩, other _ _ nofun⟩, ?_⟩, other _ _ nofun⟩
  · rintro bytes ⟨⟩
    exact ⟨List.prefix_refl _, by decide, nofun⟩
  · rintro bytes ⟨⟩
    exact ⟨List.nil_prefix, Nat.zero_le _, fun _ => Nat.le_refl _⟩

theorem serves_zero : Stepwise (Serves [0]) downloadCalls := by
  have other : ∀ (past : List (Event nativeSig)) (e : Event nativeSig),
      (∀ worker offset length x, e ≠ ⟨.worker worker (.read offset length), x⟩) →
      Serves [0] past e := fun _ _ h _ _ _ _ he => (h _ _ _ _ he).elim
  rw [show downloadCalls = [] ++ [_] ++ [_] ++ [_] ++ [_] ++ [_] from rfl]
  simp only [stepwise_concat]
  refine ⟨⟨⟨⟨⟨stepwise_nil, other _ _ nofun⟩, ?_⟩, other _ _ nofun⟩, ?_⟩, other _ _ nofun⟩
  · rintro _ _ _ _ ⟨⟩
    exact ⟨[0], rfl, List.prefix_refl _, by decide, nofun⟩
  · rintro _ _ _ _ ⟨⟩
    exact ⟨[], rfl, List.nil_prefix, Nat.zero_le _, fun _ => Nat.le_refl _⟩

theorem chunks_round_trip_zero : storedBy (writes uploadCalls) = [0] ∧
    zeroEvidence = evidenceOf [0] ∧ downloadCalls.flatMap bytesWritten = [0] := by
  have honest : ∀ (peer : CurvineCrates.Endpoint) actual,
      (⟨.worker peer .verify, .ok (.verified actual)⟩ : Event nativeSig) ∈ uploadCalls →
      CurvineCrates.portable actual = .ok (evidenceOf (storedBy (writes uploadCalls))) := by
    intro peer actual h
    simp only [uploadCalls, List.mem_cons] at h
    rcases h with h | h | h | h | h | h <;> cases h
    rfl
  obtain ⟨stored, evident, down⟩ :=
    chunks_round_trip.2.2 _ _ _ _ [0] _ _ uploads reads_zero honest
  exact ⟨stored, evident, (down _ _ _ _ _ downloads serves_zero).1⟩

end Reference

end HsmRs
