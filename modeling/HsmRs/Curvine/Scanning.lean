import HsmRs.Curvine.Budget

/-! # Scheduled scans

The scan of a policy asks for no more than is left of its budget. It comes to an end after as
many requests as the budget has records only if the replies make progress, which nothing in
the loop asks of them.
-/

namespace HsmRs

namespace Cycle

variable {f : Nat → HsmResult ScanBatch} {policy : LifecyclePolicy} {epoch fuel : Nat}
  {report : CycleReport} {past : List (Event cycleSig)} {e : Event cycleSig}

/-! ## What has been asked and answered -/

def IsScan : Event cycleSig → Bool
  | ⟨.scanScheduled _ _ _, _⟩ => true
  | _ => false

def requests (calls : List (Event cycleSig)) : Nat := calls.countP IsScan

def recordsOf : Event cycleSig → Nat
  | ⟨.scanScheduled _ _ _, .ok batch⟩ => batch.examined
  | _ => 0

/-- The records examined in all. -/
def records (calls : List (Event cycleSig)) : Nat := (calls.map recordsOf).sum

def Honours : Event cycleSig → Prop
  | ⟨.scanScheduled _ _ limit, .ok batch⟩ => batch.examined ≤ limit
  | _ => True

def Answers (f : Nat → HsmResult ScanBatch) (past : List (Event cycleSig))
    (e : Event cycleSig) : Prop :=
  ∀ ctx id limit x, e = ⟨.scanScheduled ctx id limit, x⟩ → x = f (requests past)

/-- What the loop has counted after some replies, as a machine word. -/
def examined (f : Nat → HsmResult ScanBatch) : Nat → Nat
  | 0 => 0
  | n + 1 => match f n with
    | .ok batch => (examined f n + batch.examined) % 2 ^ 64
    | .error _ => examined f n

/-- The reply ends the scan: it is an error, has no cursor, or uses up the budget. -/
def Final (f : Nat → HsmResult ScanBatch) (policy : LifecyclePolicy) (n : Nat) : Prop :=
  match f n with
  | .ok batch => batch.next = none ∨ policy.selection.scanBudget ≤ examined f (n + 1)
  | .error _ => True

theorem requests_concat : requests (past ++ [e]) = requests past + if IsScan e then 1 else 0 := by
  simp [requests, List.countP_append, List.countP_cons]

theorem records_concat : records (past ++ [e]) = records past + recordsOf e := by
  simp [records]

structure Scanned (f : Nat → HsmResult ScanBatch) (policy : LifecyclePolicy) (n count : Nat)
    (past : List (Event cycleSig)) : Prop where
  asked : requests past = n
  counted : count = examined f n
  left : count < policy.selection.scanBudget
  going : ∀ m < n, ¬ Final f policy m
  honoured : (∀ e ∈ past, Honours e) → records past = count

structure Asks (f : Nat → HsmResult ScanBatch) (policy : LifecyclePolicy) (fuel : Nat)
    (past : List (Event cycleSig)) (o : CycleOp) : Prop where
  limit : ∀ ctx id limit, o = .scanScheduled ctx id limit →
    examined f (requests past) ≤ policy.selection.scanBudget ∧ 1 ≤ limit ∧ limit ≤ 256 ∧
      limit ≤ policy.selection.scanBudget - examined f (requests past)
  spins : o = .spin → ∀ m < fuel, ¬ Final f policy m

theorem Scanned.silent {n count : Nat} (h : Scanned f policy n count past) (hs : IsScan e = false)
    (hr : recordsOf e = 0) : Scanned f policy n count (past ++ [e]) := by
  refine ⟨?_, h.counted, h.left, h.going, fun ho => ?_⟩
  · rw [requests_concat, hs]
    exact h.asked
  · rw [records_concat, hr]
    exact h.honoured fun e he => ho e (List.mem_append_left _ he)

/-- The scan has got one more reply, which may have ended it. -/
structure Got (f : Nat → HsmResult ScanBatch) (policy : LifecyclePolicy) (n : Nat)
    (past : List (Event cycleSig)) : Prop where
  asked : requests past = n + 1
  going : ∀ m < n, ¬ Final f policy m
  honoured : (∀ e ∈ past, Honours e) →
    records past = examined f (n + 1) ∧ records past ≤ policy.selection.scanBudget

theorem Got.silent {n : Nat} (h : Got f policy n past) (hs : IsScan e = false)
    (hr : recordsOf e = 0) : Got f policy n (past ++ [e]) := by
  refine ⟨?_, h.going, fun ho => ?_⟩
  · rw [requests_concat, hs]
    exact h.asked
  · rw [records_concat, hr]
    exact h.honoured fun e he => ho e (List.mem_append_left _ he)

theorem asks_other {o : CycleOp} (hs : ∀ ctx id limit, o ≠ .scanScheduled ctx id limit)
    (hp : o ≠ .spin) : Asks f policy fuel past o :=
  ⟨fun _ _ _ h => (hs _ _ _ h).elim, fun h => (hp h).elim⟩

theorem Scanned.got {n count : Nat} {ctx : OperationContext} {id : String} {x : HsmResult ScanBatch}
    (bounded : policy.selection.scanBudget < 2 ^ 64) (h : Scanned f policy n count past)
    (hx : x = f n) :
    Got f policy n
      (past ++ [⟨.scanScheduled ctx id (min 256 (policy.selection.scanBudget - count)), x⟩]) := by
  refine ⟨?_, h.going, fun ho => ?_⟩
  · rw [requests_concat, h.asked]
    rfl
  · have before := h.honoured fun e he => ho e (List.mem_append_left _ he)
    have left := h.left
    rw [records_concat, before, examined, ← hx]
    cases x with
    | error e => exact ⟨h.counted, left.le⟩
    | ok batch =>
      have limit : batch.examined ≤ min 256 (policy.selection.scanBudget - count) :=
        ho _ (List.mem_append_right _ (List.mem_singleton.mpr rfl))
      have small : count + batch.examined ≤ policy.selection.scanBudget := by omega
      refine ⟨?_, small⟩
      dsimp only
      rw [← h.counted, Nat.mod_eq_of_lt (small.trans_lt bounded)]
      rfl

theorem got_sealAll {n : Nat} {data : List DataKey} (h : Got f policy n past) :
    (sealAll data).run.Traces
      (fun past o => Stepwise (Answers f) past → Asks f policy fuel past o)
      (fun _ past' => Stepwise (Answers f) past' → Got f policy n past') past := by
  induction data generalizing past with
  | nil => exact Prog.traces_ret.mpr fun _ => h
  | cons data rest ih =>
    refine Prog.traces_call.mpr ⟨fun _ => asks_other nofun nofun, fun x => ?_⟩
    have got := h.silent (e := ⟨.sealOrdinary data, x⟩) rfl rfl
    cases x with
    | error e => exact fun _ => got
    | ok _ => exact ih got

theorem scanned_scanBatch {n count : Nat} (bounded : policy.selection.scanBudget < 2 ^ 64)
    (h : Scanned f policy n count past) :
    (scanBatch epoch policy (count, report)).run.Traces
      (fun past o => Stepwise (Answers f) past → Asks f policy fuel past o)
      (fun r past' => Stepwise (Answers f) past' → match r with
        | .ok (.inl state) => Scanned f policy (n + 1) state.1 past'
        | .ok (.inr _) | .error _ => ∃ n, Got f policy n past') past := by
  refine traces_leaving_context.mpr ⟨fun _ => asks_other nofun nofun, fun t => ?_⟩
  have h := h.silent (e := ⟨.token, t⟩) rfl rfl
  refine traces_leaving_call.mpr ⟨fun _ => ⟨?_, nofun⟩, fun x => ?_⟩
  · rintro _ _ _ ⟨⟩
    rw [h.asked, ← h.counted]
    have := h.left
    omega
  have answered :
    Stepwise (Answers f) (past ++ [⟨.token, t⟩] ++ [⟨.scanScheduled ⟨t, epoch, 1⟩ policy.id
      (min 256 (policy.selection.scanBudget - count)), x⟩]) → x = f n := fun hs =>
    ((stepwise_concat.mp hs).2 _ _ _ _ rfl).trans (congrArg f h.asked)
  cases x with
  | error e => exact fun hs => ⟨n, h.got bounded (answered hs)⟩
  | ok batch =>
    refine Prog.traces_assume fun hs => ?_
    have hx := answered hs
    refine traces_leaving.mpr ((got_sealAll (h.got bounded hx)).mono (fun _ _ h => h) ?_)
    rintro (e | _) past' got
    · exact fun hs => ⟨n, got hs⟩
    · have counted : (count + batch.examined) % 2 ^ 64 = examined f (n + 1) := by
        rw [examined, ← hx, h.counted]
      dsimp only
      split
      · exact Prog.traces_ret.mpr fun hs => ⟨n, got hs⟩
      · rename_i more
        rw [not_or, Option.isNone_iff_eq_none] at more
        refine Prog.traces_ret.mpr fun hs =>
          ⟨(got hs).asked, counted, Nat.lt_of_not_le more.2, ?_, ?_⟩
        · intro m hm
          rcases Nat.lt_succ_iff_lt_or_eq.mp hm with hm | rfl
          · exact h.going m hm
          · rw [Final, ← hx, ← counted]
            exact fun hf => hf.elim more.1 more.2
        · exact fun ho => ((got hs).honoured ho).1.trans counted.symm

theorem scanned_scanPolicy (positive : 1 ≤ policy.selection.scanBudget)
    (bounded : policy.selection.scanBudget < 2 ^ 64) :
    (scanPolicy fuel epoch policy report).run.Traces
      (fun past o => Stepwise (Answers f) past → Asks f policy fuel past o)
      (fun _ past' => Stepwise (Answers f) past' → ∃ n, Got f policy n past') [] := by
  refine Prog.traces_loop_assume (I := fun k state past => ∃ n, n + k = fuel ∧
    Scanned f policy n state.1 past) ?_ ?_
      ⟨0, Nat.zero_add _, rfl, rfl, positive, nofun, fun _ => rfl⟩
  · rintro state past _ ⟨n, rfl, h⟩
    exact Prog.traces_op.mpr ⟨fun _ => ⟨nofun, fun _ => h.going⟩, nofun⟩
  · rintro k ⟨count, report⟩ past _ ⟨n, rfl, h⟩
    refine (scanned_scanBatch bounded h).mono (fun _ _ h => h) ?_
    rintro (e | state | report) past' h hs
    · exact h hs
    · exact ⟨n + 1, by omega, h hs⟩
    · exact h hs

/-! ## Replies without progress -/

theorem runs_leaving {p : Cycle α} {a : α} {s s' : Trace cycleSig}
    (h : Runs (adversary cycleSig) p.run s (.ok a) s') :
    Runs (adversary cycleSig) (leaving report p).run s (.ok a) s' :=
  Runs.bind_iff.mpr ⟨.ok a, s', h, .ret _ _⟩

theorem runs_sealAll (data : List DataKey) (h : Stepwise (Answers f) past) :
    ∃ past', Runs (adversary cycleSig) (sealAll data).run ⟨past, none⟩ (.ok ()) ⟨past', none⟩ ∧
      Stepwise (Answers f) past' ∧ requests past' = requests past := by
  induction data generalizing past with
  | nil => exact ⟨past, .ret _ _, h, rfl⟩
  | cons data rest ih =>
    have hs : Stepwise (Answers f) (past ++ [⟨.sealOrdinary data, .ok ()⟩]) :=
      stepwise_concat.mpr ⟨h, nofun⟩
    obtain ⟨past', hr, hs', same⟩ := ih hs
    refine ⟨past', ?_, hs', ?_⟩
    · exact Runs.run_bind_ok.mpr ⟨(), _, .op (x := (.ok () : HsmResult Unit)) rfl (.ret _ _), hr⟩
    · rw [same, requests_concat]
      rfl

theorem runs_scanBatch {n : Nat} (going : ¬ Final f policy n) (asked : requests past = n)
    (h : Stepwise (Answers f) past) :
    ∃ past' report', Runs (adversary cycleSig)
        (scanBatch epoch policy (examined f n, report)).run ⟨past, none⟩
        (.ok (.inl (examined f (n + 1), report'))) ⟨past', none⟩ ∧
      Stepwise (Answers f) past' ∧ requests past' = n + 1 := by
  cases hf : f n with
  | error e => exact (going (by rw [Final, hf]; trivial)).elim
  | ok batch =>
    rw [Final, hf, not_or] at going
    have counted : examined f (n + 1) = (examined f n + batch.examined) % 2 ^ 64 := by
      rw [examined, hf]
    have token : requests (past ++ [⟨.token, ""⟩]) = n := by
      rw [requests_concat, asked]
      rfl
    have hs :
      Stepwise (Answers f) (past ++ [⟨.token, ""⟩] ++ [⟨.scanScheduled ⟨"", epoch, 1⟩ policy.id
        (min 256 (policy.selection.scanBudget - examined f n)), .ok batch⟩]) := by
      refine stepwise_concat.mpr ⟨stepwise_concat.mpr ⟨h, nofun⟩, ?_⟩
      rintro _ _ _ _ ⟨⟩
      rw [token, hf]
    obtain ⟨past', hr, hs', same⟩ := runs_sealAll batch.toSeal hs
    refine ⟨past', { report with admitted := report.admitted + batch.admitted.length }, ?_, hs', ?_⟩
    · refine .op (x := "") rfl (.op (x := (.ok batch : HsmResult ScanBatch)) rfl ?_)
      refine Runs.run_bind_ok.mpr ⟨(), _, runs_leaving hr, ?_⟩
      rw [if_neg, counted]
      · exact .ret _ _
      · rw [not_or, Option.isNone_iff_eq_none, ← counted]
        exact going
    · rw [same, requests_concat, token]
      rfl

/-- Replies that never end the scan keep the loop going. -/
theorem exists_spin (epoch : Nat) (report : CycleReport) {k n : Nat}
    (going : ∀ m < n + k, ¬ Final f policy m)
    (asked : requests past = n) (h : Stepwise (Answers f) past) :
    ∃ past', Cuts (adversary cycleSig)
        (Prog.loop (Prog.stuck (S := cycleSig) .spin id) (scanBatch epoch policy) k
          (examined f n, report)).run ⟨past, none⟩
        ⟨past', some .spin⟩ ∧ Stepwise (Answers f) past' := by
  induction k generalizing n report past with
  | zero => exact ⟨past, .torn rfl, h⟩
  | succ k ih =>
    obtain ⟨past', report', hr, hs, asked⟩ := runs_scanBatch (going n (by omega)) asked h
    obtain ⟨past'', hc, hs⟩ := ih report' (fun m hm => going m (by omega)) asked hs
    exact ⟨past'', .after_ok hr hc, hs⟩

/-! ## What the replies have to do -/

def examinedIn : HsmResult ScanBatch → Nat
  | .ok batch => batch.examined
  | .error _ => 0

/-- The records that the first replies have examined, with nothing lost to an overflow. -/
def examinedInFirst (f : Nat → HsmResult ScanBatch) (n : Nat) : Nat :=
  ((List.range n).map fun m => examinedIn (f m)).sum

def Paged : HsmResult ScanBatch → Prop
  | .ok batch => batch.next ≠ none
  | .error _ => False

/-- A page examines something. -/
def Progresses (reply : HsmResult ScanBatch) : Prop := Paged reply → 1 ≤ examinedIn reply

/-- The count of a page does not overflow that of the loop. -/
def Fits (policy : LifecyclePolicy) (reply : HsmResult ScanBatch) : Prop :=
  Paged reply → examinedIn reply + policy.selection.scanBudget ≤ 2 ^ 64

theorem examinedInFirst_succ {n : Nat} :
    examinedInFirst f (n + 1) = examinedInFirst f n + examinedIn (f n) := by
  simp [examinedInFirst, List.range_succ]

theorem examined_succ {n : Nat} (paged : Paged (f n)) :
    examined f (n + 1) = (examined f n + examinedIn (f n)) % 2 ^ 64 := by
  cases hf : f n with
  | error e => exact (hf ▸ paged : Paged (.error e)).elim
  | ok batch => rw [examined, hf, examinedIn]

theorem final_iff {n : Nat} :
    Final f policy n ↔ ¬ Paged (f n) ∨ policy.selection.scanBudget ≤ examined f (n + 1) := by
  cases hf : f n with
  | error e => simp [Final, Paged, hf]
  | ok batch => simp [Final, Paged, hf]

/-- While no reply is the last one, the loop counts as the replies do. -/
theorem examined_going {n : Nat} (fits : ∀ m < n, Fits policy (f m))
    (positive : 1 ≤ policy.selection.scanBudget) (going : ∀ m < n, ¬ Final f policy m) :
    examined f n = examinedInFirst f n ∧ examinedInFirst f n < policy.selection.scanBudget := by
  induction n with
  | zero => exact ⟨rfl, positive⟩
  | succ n ih =>
    obtain ⟨same, left⟩ := ih (fun m hm => fits m (by omega)) fun m hm => going m (by omega)
    have more := going n n.lt_succ_self
    rw [final_iff, not_or, not_not] at more
    have fit := fits n n.lt_succ_self more.1
    have counted : examined f (n + 1) = examinedInFirst f (n + 1) := by
      rw [examined_succ more.1, examinedInFirst_succ, same, Nat.mod_eq_of_lt (by omega)]
    exact ⟨counted, by omega⟩

/-- As long as the records of all pages are fewer than the budget, no page is the last one. -/
theorem examined_stalled {n : Nat} (bounded : policy.selection.scanBudget < 2 ^ 64)
    (paged : ∀ m < n, Paged (f m)) (few : examinedInFirst f n < policy.selection.scanBudget) :
    examined f n = examinedInFirst f n ∧ ∀ m < n, ¬ Final f policy m := by
  induction n with
  | zero => exact ⟨rfl, nofun⟩
  | succ n ih =>
    have few' : examinedInFirst f n + examinedIn (f n) < policy.selection.scanBudget := by
      rw [← examinedInFirst_succ]
      exact few
    obtain ⟨same, going⟩ := ih (fun m hm => paged m (by omega)) (by omega)
    have counted : examined f (n + 1) = examinedInFirst f (n + 1) := by
      rw [examined_succ (paged n n.lt_succ_self), examinedInFirst_succ, same,
        Nat.mod_eq_of_lt (by omega)]
    refine ⟨counted, fun m hm => ?_⟩
    rcases Nat.lt_succ_iff_lt_or_eq.mp hm with hm | rfl
    · exact going m hm
    · rw [final_iff, not_or, not_not]
      exact ⟨paged m hm, by omega⟩

/-- Some of the first replies is the last one exactly if it is not a page, or all of them together
use up the budget. -/
theorem exists_final_iff {n : Nat} (positive : 1 ≤ policy.selection.scanBudget)
    (bounded : policy.selection.scanBudget < 2 ^ 64) (fits : ∀ m < n, Fits policy (f m)) :
    (∃ m < n, Final f policy m) ↔
      (∃ m < n, ¬ Paged (f m)) ∨ policy.selection.scanBudget ≤ examinedInFirst f n := by
  constructor
  · rintro ⟨m, hm, final⟩
    by_contra h
    rw [not_or, not_exists] at h
    have paged : ∀ m < n, Paged (f m) := fun m hm => by_contra fun hp => h.1 m ⟨hm, hp⟩
    exact (examined_stalled bounded paged (Nat.lt_of_not_le h.2)).2 m hm final
  · intro h
    by_contra hn
    have going : ∀ m < n, ¬ Final f policy m := fun m hm final => hn ⟨m, hm, final⟩
    rcases h with ⟨m, hm, last⟩ | enough
    · exact going m hm (final_iff.mpr (.inl last))
    · exact absurd (examined_going fits positive going).2 (Nat.not_lt.mpr enough)

theorem le_examinedInFirst {n : Nat} (paged : ∀ m < n, Paged (f m))
    (progress : ∀ m < n, Progresses (f m)) : n ≤ examinedInFirst f n := by
  induction n with
  | zero => exact Nat.zero_le _
  | succ n ih =>
    have := progress n n.lt_succ_self (paged n n.lt_succ_self)
    have := ih (fun m hm => paged m (by omega)) fun m hm => progress m (by omega)
    rw [examinedInFirst_succ]
    omega

/-! ## The bound -/

/-- The scan keeps to its budget: what it asks for is left of the budget, and what is examined
stays within the budget if the replies honour the limits. -/
structure ScanKeeps (f : Nat → HsmResult ScanBatch) (policy : LifecyclePolicy) (epoch : Nat) :
    Prop where
  limit : ∀ fuel report past ctx id limit,
    (scanPolicy fuel epoch policy report).Makes past (.scanScheduled ctx id limit) →
    Stepwise (Answers f) past →
    examined f (requests past) ≤ policy.selection.scanBudget ∧ 1 ≤ limit ∧ limit ≤ 256 ∧
      limit ≤ policy.selection.scanBudget - examined f (requests past)
  total : ∀ fuel report calls r, (scanPolicy fuel epoch policy report).Ends calls r →
    Stepwise (Answers f) calls → (∀ e ∈ calls, Honours e) →
      records calls ≤ policy.selection.scanBudget

/-- It also ends after at most as many requests as the budget has records. -/
structure ScanBounded (f : Nat → HsmResult ScanBatch) (policy : LifecyclePolicy)
    (epoch : Nat) : Prop
    extends ScanKeeps f policy epoch where
  asked : ∀ fuel report calls r, (scanPolicy fuel epoch policy report).Ends calls r →
    Stepwise (Answers f) calls → requests calls ≤ policy.selection.scanBudget
  ends : ∀ fuel report past, policy.selection.scanBudget ≤ fuel →
    (scanPolicy fuel epoch policy report).Makes past .spin → ¬ Stepwise (Answers f) past

theorem scanKeeps (positive : 1 ≤ policy.selection.scanBudget)
    (bounded : policy.selection.scanBudget < 2 ^ 64) : ScanKeeps f policy epoch := by
  refine ⟨fun fuel report past ctx id limit hm hs => ?_, fun fuel report calls r he hs ho => ?_⟩
  · exact ((scanned_scanPolicy positive bounded).makes hm hs).limit ctx id limit rfl
  · obtain ⟨m, got⟩ := (scanned_scanPolicy positive bounded).ends he hs
    exact (got.honoured ho).2

theorem scanBounded_iff (positive : 1 ≤ policy.selection.scanBudget)
    (bounded : policy.selection.scanBudget < 2 ^ 64) :
    ScanBounded f policy epoch ↔ ∃ n < policy.selection.scanBudget, Final f policy n := by
  constructor
  · intro h
    by_contra hn
    have going : ∀ m < 0 + policy.selection.scanBudget, ¬ Final f policy m := fun m hm hf =>
      hn ⟨m, by omega, hf⟩
    obtain ⟨past, hc, hs⟩ := exists_spin epoch ⟨"all", 0, 0, 0, 0⟩ going rfl stepwise_nil
    exact h.ends _ _ past (Nat.le_refl _) hc hs
  · rintro ⟨n, hn, final⟩
    refine ⟨scanKeeps positive bounded, fun fuel report calls r he hs => ?_,
      fun fuel report past hf hm hs => ?_⟩
    · obtain ⟨m, got⟩ := (scanned_scanPolicy positive bounded).ends he hs
      have : m ≤ n := Nat.le_of_not_lt fun hlt => got.going n hlt final
      rw [got.asked]
      omega
    · exact ((scanned_scanPolicy positive bounded).makes hm hs).spins rfl n (by omega) final

/-- The scan keeps to its budget whatever it is replied. It is bounded if every page makes progress
without an overflow. If none overflows, it is bounded exactly if one of the first replies is not a
page, as many as the budget has records, or they examine as many records together. -/
theorem scan_bounded (positive : 1 ≤ policy.selection.scanBudget)
    (bounded : policy.selection.scanBudget < 2 ^ 64) :
    ScanKeeps f policy epoch ∧
      ((∀ n < policy.selection.scanBudget, Progresses (f n) ∧ Fits policy (f n)) →
        ScanBounded f policy epoch) ∧
      ((∀ n < policy.selection.scanBudget, Fits policy (f n)) →
        (ScanBounded f policy epoch ↔ (∃ n < policy.selection.scanBudget, ¬ Paged (f n)) ∨
          policy.selection.scanBudget ≤ examinedInFirst f policy.selection.scanBudget)) := by
  refine ⟨scanKeeps positive bounded, fun h => ?_, fun fits => ?_⟩
  · refine (scanBounded_iff positive bounded).mpr
      ((exists_final_iff positive bounded fun n hn => (h n hn).2).mpr ?_)
    by_cases paged : ∀ n < policy.selection.scanBudget, Paged (f n)
    · exact .inr (le_examinedInFirst paged fun n hn => (h n hn).1)
    · simp only [not_forall, exists_prop] at paged
      exact .inl paged
  · exact (scanBounded_iff positive bounded).trans (exists_final_iff positive bounded fits)

def nightly : LifecyclePolicy where
  id := "nightly"
  revision := 1
  enabled := true
  pathPrefix := "/"
  minSize := 0
  maxSize := none
  minResidencyMs := 0
  action := .archive
  backend := "b"

example : nightly.validate = .ok () := by decide

def fullPages : Nat → HsmResult ScanBatch := fun _ => .ok ⟨[], 256, [], some "k"⟩

theorem scan_bounded_pages : ScanBounded fullPages nightly 1 :=
  (scan_bounded (by decide) (by decide)).2.1 fun _ _ =>
    ⟨fun _ => show 1 ≤ 256 by decide, fun _ => show 256 + 1024 ≤ 2 ^ 64 by decide⟩

/-- Pages on which nothing has been examined, each with a cursor to the next. -/
def emptyPages : Nat → HsmResult ScanBatch := fun _ => .ok ⟨[], 0, [], some "k"⟩

/-- The scan of empty pages goes on beyond the budget. -/
theorem scan_unbounded : ¬ ScanBounded emptyPages nightly 1 := by
  have fits : ∀ n < nightly.selection.scanBudget, Fits nightly (emptyPages n) := fun _ _ _ =>
    show 0 + 1024 ≤ 2 ^ 64 by decide
  have none : examinedInFirst emptyPages nightly.selection.scanBudget = 0 := by
    simp [examinedInFirst, emptyPages, examinedIn]
  rw [scanBounded_iff (by decide) (by decide), exists_final_iff (by decide) (by decide) fits, none]
  rintro (⟨_, _, last⟩ | enough)
  · exact last nofun
  · exact absurd enough (by decide)

end Cycle

end HsmRs
