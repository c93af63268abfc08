import HsmRs.Curvine.Cycle

/-! # What a cycle runs

However often a cycle enters a pass, it runs no more than its actions, and only work of its
lane and its backend that is ready or left by an earlier epoch.
-/

namespace HsmRs

namespace Cycle

/-! ## What has happened -/

def listed : Event cycleSig → Option (List LifecycleIntent)
  | ⟨.readyIntents _ _ _, .ok page⟩ => some page.items
  | ⟨.readyIntentsIn _ _ _ _, .ok page⟩ => some page.items
  | _ => none

def listings (calls : List (Event cycleSig)) : List (List LifecycleIntent) := calls.filterMap listed

def RanOk : Event cycleSig → Bool
  | ⟨.runIntent _ _ _, .ok _⟩ => true
  | _ => false

/-- The runs that have returned `Ok`. -/
def ran (calls : List (Event cycleSig)) : Nat := calls.countP RanOk

def defined : Event cycleSig → List LifecyclePolicy
  | ⟨.policies _ _ _, .ok page⟩ => page.items
  | _ => []

/-- The definition of a policy: the last one listed, or the initial one. -/
def current (initial : Definitions) (calls : List (Event cycleSig)) (id : String) :
    Option LifecyclePolicy :=
  ((calls.flatMap defined).reverse.find? fun p => p.id = id).or (initial.lookup id)

variable {past past' : List (Event cycleSig)} {e : Event cycleSig}

theorem listings_concat : listings (past ++ [e]) = listings past ++ (listed e).toList := by
  cases h : listed e <;> simp [listings, h]

theorem ran_concat : ran (past ++ [e]) = ran past + if RanOk e then 1 else 0 := by
  simp [ran, List.countP_append, List.countP_cons]

theorem current_concat {initial : Definitions} {id : String} : current initial (past ++ [e]) id =
    ((defined e).reverse.find? fun p => p.id = id).or (current initial past id) := by
  simp [current, List.find?_append, Option.or_assoc]

theorem lookup_insert {policy : LifecyclePolicy} {definitions : Definitions} {id : String} :
    (definitions.insert policy).lookup id =
      if policy.id = id then some policy else definitions.lookup id := by
  induction definitions with
  | nil =>
    by_cases h : policy.id = id
    · simp [Definitions.insert, h]
    · simp [Definitions.insert, h, Ne.symm h]
  | cons entry rest ih =>
    obtain ⟨key, p⟩ := entry
    unfold Definitions.insert
    split
    · simp only [List.lookup_cons]
      by_cases h : policy.id = id
      · simp [h]
      · simp [h, beq_false_of_ne (Ne.symm h)]
    · split
      · rename_i same
        simp only [List.lookup_cons]
        by_cases h : policy.id = id
        · simp [h, ← same]
        · simp [h, ← same, beq_false_of_ne (Ne.symm h)]
      · rename_i other
        simp only [List.lookup_cons, ih]
        by_cases h : policy.id = id
        · have : id ≠ key := fun hk => other (h.trans hk)
          simp [h, beq_false_of_ne this]
        · simp [h]

theorem lookup_page {items : List LifecyclePolicy} {definitions : Definitions} {id : String} :
    (items.foldl (fun result policy => result.insert policy) definitions).lookup id =
      (items.reverse.find? fun p => p.id = id).or (definitions.lookup id) := by
  induction items generalizing definitions with
  | nil => rfl
  | cons policy items ih =>
    rw [List.foldl_cons, ih, lookup_insert, List.reverse_cons, List.find?_append, Option.or_assoc]
    by_cases h : policy.id = id <;> simp [h]

/-! ## What may be run -/

/-- The work is of the lane: recalls are that of the recall lane, all others of the background. -/
def Accepted («class» : Option WorkClass) (intent : LifecycleIntent) : Prop :=
  ∀ c, «class» = some c → ((∃ key, intent.action = .«recall» key) ↔ c = .«recall»)

/-- The work is ready, or has been claimed in an earlier epoch. -/
def Open (epoch : Nat) (intent : LifecycleIntent) : Prop :=
  intent.status = .ready ∨ intent.status = .running ∧ ∃ c, intent.claim = some c ∧ c.epoch < epoch

/-- The backend is that of the archive key, for a release that of the policy's definition. -/
def Own (backendId : String) (definition : String → Option LifecyclePolicy)
    (intent : LifecycleIntent) : Prop :=
  (∃ key, (intent.action = .archive key ∨ intent.action = .«recall» key) ∧
    key.backend = backendId) ∨
    intent.action = .release ∧ ∃ p, definition intent.policy = some p ∧ p.backend = backendId

theorem accepts_iff {c : WorkClass} {action : ManagedAction} :
    c.accepts action = true ↔ ((∃ key, action = .«recall» key) ↔ c = .«recall») := by
  cases c <;> cases action <;> simp [WorkClass.accepts]

theorem eligible_iff {epoch : Nat} {intent : LifecycleIntent} :
    eligible epoch intent = true ↔ Open epoch intent := by
  simp only [eligible, Open, Bool.or_eq_true, Bool.and_eq_true, decide_eq_true_eq,
    Option.any_eq_true]

theorem belongs_iff {definitions : Definitions} {backendId : String} {intent : LifecycleIntent} :
    belongs definitions backendId intent = true ↔
      Own backendId (fun id => definitions.lookup id) intent := by
  unfold belongs Own
  cases intent.action <;> simp [Option.any_eq_true]

/-- An intent of the last page that may be run: it is open to this epoch and for this backend,
and it and all before it are work of the lane. -/
def Runnable (initial : Definitions) (backendId : String) (epoch : Nat)
    («class» : Option WorkClass) (past : List (Event cycleSig)) (id : String) : Prop :=
  ∃ before intent after, (listings past).getLast? = some (before ++ intent :: after) ∧
    intent.id = id ∧ Open epoch intent ∧ Own backendId (current initial past) intent ∧
    ∀ i ∈ before ++ [intent], Accepted «class» i

/-- The actions are not used up by more than there are, and only runnable work is run. -/
def Allowed (initial : Definitions) (backendId : String) (epoch maxActions start : Nat)
    («class» : Option WorkClass) (past : List (Event cycleSig)) (o : CycleOp) : Prop :=
  start + ran past ≤ maxActions ∧ ∀ ctx id owner, o = .runIntent ctx id owner →
    start + ran past < maxActions ∧ Runnable initial backendId epoch «class» past id

/-- The report counts what has been run, from `start` on, and the definitions are the current
ones. -/
structure Kept (initial definitions : Definitions) (maxActions start : Nat) (report : CycleReport)
    (past : List (Event cycleSig)) : Prop where
  ran : start + ran past = report.executed
  budget : report.executed ≤ maxActions
  current : ∀ id, definitions.lookup id = current initial past id

variable {initial definitions : Definitions} {backendId owner : String}
  {epoch maxActions start : Nat}
  {«class» : Option WorkClass} {report : CycleReport} {intent : LifecycleIntent}

theorem Kept.allowed (h : Kept initial definitions maxActions start report past) {o : CycleOp}
    (ho : ∀ ctx id owner, o ≠ .runIntent ctx id owner) :
    Allowed initial backendId epoch maxActions start «class» past o :=
  ⟨h.ran.trans_le h.budget, fun _ _ _ h => (ho _ _ _ h).elim⟩

theorem Kept.silent (h : Kept initial definitions maxActions start report past)
    (hr : RanOk e = false)
    (hd : defined e = []) : Kept initial definitions maxActions start report (past ++ [e]) := by
  refine ⟨?_, h.budget, ?_⟩
  · rw [ran_concat, hr, ← h.ran]
    rfl
  · intro id
    rw [current_concat, hd]
    exact h.current id

section

variable {α β : Type} {C : List (Event cycleSig) → CycleOp → Prop}

theorem traces_context {f : OperationContext → Cycle β}
    {Q : HsmResult β → List (Event cycleSig) → Prop} :
    (context epoch >>= f).run.Traces C Q past ↔ C past .token ∧
      ∀ t, (f ⟨t, epoch, 1⟩).run.Traces C Q (past ++ [⟨.token, t⟩]) := by
  unfold context
  rw [bind_assoc]
  exact Prog.traces_call

variable {f : α → Reporting β}
  {Q : Except (HsmError × CycleReport) β → List (Event cycleSig) → Prop}

theorem traces_leaving {p : Cycle α} : (leaving report p >>= f).run.Traces C Q past ↔
    p.run.Traces C (fun r past => match r with
      | .ok a => (f a).run.Traces C Q past
      | .error e => Q (.error (e, report)) past) past := by
  rw [Prog.traces_run_bind, leaving, Prog.run_mk, Prog.traces_bind]
  constructor <;> intro h <;> refine h.mono (fun _ _ h => h) ?_ <;> rintro (e | a) past
  · exact Prog.traces_ret.mp
  · exact Prog.traces_ret.mp
  · exact Prog.traces_ret.mpr
  · exact fun h => Prog.traces_ret.mpr h

theorem traces_leaving_call {o : CycleOp} {g : o.Ans → HsmResult α} :
    (leaving report (Prog.call o g) >>= f).run.Traces C Q past ↔ C past o ∧ ∀ x, match g x with
      | .ok a => (f a).run.Traces C Q (past ++ [⟨o, x⟩])
      | .error e => Q (.error (e, report)) (past ++ [⟨o, x⟩]) :=
  traces_leaving.trans Prog.traces_last

theorem traces_leaving_context {f : OperationContext → Reporting β} :
    (leaving report (context epoch) >>= f).run.Traces C Q past ↔ C past .token ∧
      ∀ t, (f ⟨t, epoch, 1⟩).run.Traces C Q (past ++ [⟨.token, t⟩]) := by
  refine traces_leaving.trans ?_
  unfold context
  exact Prog.traces_call.trans (and_congr_right fun _ => forall_congr' fun _ => Prog.traces_ret)

theorem traces_outcome {p : Reporting α} {Q : HsmResult α → List (Event cycleSig) → Prop} :
    (outcome p).run.Traces C Q past ↔
      p.run.Traces C (fun r past => Q (r.mapError Prod.fst) past) past := by
  rw [outcome, Prog.run_mk, Prog.traces_bind]
  simp only [Prog.traces_ret]

end

def otherClass : HsmError := .integrity "source returned work from another execution class"

/-- Every result could be printed. -/
def Printed (past : List (Event cycleSig)) : Prop := ∀ r e, ⟨.print r, .error e⟩ ∉ past

/-- What holds of the report wherever it is left: no more has been run than there are actions, and
it counts what has been run, unless the last of that could not be printed. -/
structure Left (maxActions start : Nat) (report : CycleReport)
    (past : List (Event cycleSig)) : Prop where
  budget : start + ran past ≤ maxActions
  counted : Printed past → start + ran past = report.executed

theorem Kept.left (h : Kept initial definitions maxActions start report past) :
    Left maxActions start report past := ⟨h.ran.trans_le h.budget, fun _ => h.ran⟩

def Broken (past : List (Event cycleSig)) (e : HsmError) : Prop :=
  (∃ ctx id owner, ⟨.runIntent ctx id owner, .error e⟩ ∈ past) ∨ ∃ r, ⟨.print r, .error e⟩ ∈ past

theorem accepted_of_not_any (h : ¬ «class».any (fun c => ¬ c.accepts intent.action)) :
    Accepted «class» intent := by
  rintro c rfl
  exact accepts_iff.mp (by simpa using h)

theorem traces_executeItem {before after : List LifecycleIntent}
    (h : Kept initial definitions maxActions start report past)
    (left : report.executed < maxActions)
    (page : (listings past).getLast? = some (before ++ intent :: after))
    (accepted : ∀ i ∈ before, Accepted «class» i) :
    (executeItem definitions backendId epoch owner maxActions «class» report intent).run.Traces
      (Allowed initial backendId epoch maxActions start «class») (fun r past' => match r with
        | .ok (.inl report) => Kept initial definitions maxActions start report past' ∧
            report.executed < maxActions ∧ listings past' = listings past ∧ Accepted «class» intent
        | .ok (.inr report) => Kept initial definitions maxActions start report past' ∧
            report.executed = maxActions
        | .error (e, report) => Left maxActions start report past' ∧
            (e = otherClass ∨ Broken past' e))
      past := by
  refine Prog.traces_guard.mpr ⟨fun _ => ⟨h.left, .inl rfl⟩, fun hn => ?_⟩
  have own : Accepted «class» intent := accepted_of_not_any hn
  split
  · exact Prog.traces_ret.mpr ⟨h, left, rfl, own⟩
  rename_i hb
  split
  · exact Prog.traces_ret.mpr ⟨h, left, rfl, own⟩
  rename_i he
  refine traces_leaving_context.mpr ⟨h.allowed nofun, fun t => ?_⟩
  have h := h.silent (e := ⟨.token, t⟩) rfl rfl
  have page' : listings (past ++ [⟨.token, t⟩]) = listings past := by
    rw [listings_concat]
    exact List.append_nil _
  refine traces_leaving_call.mpr ⟨⟨h.ran.trans_le h.budget, ?_⟩, fun x => ?_⟩
  · rintro _ _ _ ⟨⟩
    refine ⟨h.ran.trans_lt left, before, intent, after, page' ▸ page, rfl,
      eligible_iff.mp (not_not.mp he), ?_, ?_⟩
    · rw [← funext h.current]
      exact belongs_iff.mp (not_not.mp hb)
    · intro i hi
      rcases List.mem_append.mp hi with hi | hi
      · exact accepted i hi
      · exact List.mem_singleton.mp hi ▸ own
  have listings' :
    listings (past ++ [⟨.token, t⟩] ++ [⟨.runIntent ⟨t, epoch, 1⟩ intent.id owner, x⟩]) =
      listings past := by
    rw [listings_concat, page']
    exact List.append_nil _
  cases x with
  | error e =>
    have kept := h.silent (e := ⟨.runIntent ⟨t, epoch, 1⟩ intent.id owner, .error e⟩) rfl rfl
    cases e with
    | busy _ | conflict _ => exact Prog.traces_ret.mpr ⟨kept, left, listings', own⟩
    | _ =>
      exact Prog.traces_ret.mpr ⟨kept.left,
        .inr (.inl ⟨_, _, _, List.mem_append_right _ (List.mem_singleton.mpr rfl)⟩)⟩
  | ok result =>
    have kept : ∀ report' : CycleReport, report'.executed = report.executed + 1 →
        Kept initial definitions maxActions start report' (past ++ [⟨.token, t⟩] ++
          [⟨.runIntent ⟨t, epoch, 1⟩ intent.id owner, .ok result⟩]) := by
      intro report' hr
      refine ⟨?_, by omega, ?_⟩
      · rw [ran_concat, hr, ← h.ran]
        rfl
      · intro id
        rw [current_concat]
        exact h.current id
    refine traces_leaving_call.mpr
      ⟨(kept { report with executed := report.executed + 1 } rfl).allowed nofun,
      fun x => ?_⟩
    cases x with
    | error e =>
      have counted := (kept { report with executed := report.executed + 1 } rfl).silent
        (e := ⟨.print result, .error e⟩) rfl rfl
      refine ⟨⟨counted.left.budget, fun printed => ?_⟩, .inr (.inr ⟨result, by simp⟩)⟩
      exact (printed result e (by simp)).elim
    | ok _ =>
      have kept := fun report' hr => (kept report' hr).silent (e := ⟨.print result, .ok ()⟩) rfl rfl
      dsimp only
      split
      · rename_i full
        refine Prog.traces_ret.mpr ⟨kept _ rfl, Nat.le_antisymm (kept _ rfl).budget full⟩
      · rename_i more
        refine Prog.traces_ret.mpr ⟨kept _ rfl, Nat.lt_of_not_le more, ?_, own⟩
        rw [listings_concat, listings']
        exact List.append_nil _

theorem traces_executeItems {before items : List LifecycleIntent}
    (h : Kept initial definitions maxActions start report past)
    (left : report.executed < maxActions)
    (page : (listings past).getLast? = some (before ++ items))
    (accepted : ∀ i ∈ before, Accepted «class» i) :
    (executeItems definitions backendId epoch owner maxActions «class» report items).run.Traces
      (Allowed initial backendId epoch maxActions start «class») (fun r past' => match r with
        | .ok (.inl report) => Kept initial definitions maxActions start report past' ∧
            report.executed < maxActions ∧ listings past' = listings past ∧
            ∀ i ∈ items, Accepted «class» i
        | .ok (.inr report) => Kept initial definitions maxActions start report past' ∧
            report.executed = maxActions
        | .error (e, report) => Left maxActions start report past' ∧
            (e = otherClass ∨ Broken past' e))
      past := by
  induction items generalizing before report past with
  | nil => exact Prog.traces_ret.mpr ⟨h, left, rfl, fun _ hi => (List.not_mem_nil hi).elim⟩
  | cons intent items ih =>
    refine Prog.traces_run_bind.mpr ((traces_executeItem h left page accepted).mono
      (fun _ _ h => h) ?_)
    rintro (⟨e, report'⟩ | report' | report') past' h
    · exact h
    · obtain ⟨kept, left, same, own⟩ := h
      have page : (listings past').getLast? = some ((before ++ [intent]) ++ items) := by
        rw [same, page]
        simp
      have accepted : ∀ i ∈ before ++ [intent], Accepted «class» i := by
        intro i hi
        rcases List.mem_append.mp hi with hi | hi
        · exact accepted i hi
        · exact List.mem_singleton.mp hi ▸ own
      refine (ih kept left page accepted).mono (fun _ _ h => h) ?_
      rintro (⟨e, report''⟩ | report'' | report'') past'' h
      · exact h
      · obtain ⟨kept, left, same', rest⟩ := h
        exact ⟨kept, left, same'.trans same, List.forall_mem_cons.mpr ⟨own, rest⟩⟩
      · exact h
    · exact Prog.traces_ret.mpr h

def Clean («class» : Option WorkClass) (first past : List (Event cycleSig)) : Prop :=
  ∃ pages, listings past = listings first ++ pages ∧ ∀ items ∈ pages,
    ∀ i ∈ items, Accepted «class» i

/-- How a pass can end: all of its work was of the lane, or it has used up its actions, or it has
failed on work of another lane or with the error of a run. -/
def Passed (initial definitions : Definitions) (maxActions start : Nat)
    («class» : Option WorkClass) (first past : List (Event cycleSig)) :
    Except (HsmError × CycleReport) CycleReport → Prop
  | .ok report => Kept initial definitions maxActions start report past ∧
      (Clean «class» first past ∨ report.executed = maxActions)
  | .error (e, report) => Left maxActions start report past ∧
      (Clean «class» first past ∨ e = otherClass ∨ Broken past e)

theorem Clean.listing {first : List (Event cycleSig)} {items : List LifecycleIntent}
    (h : Clean «class» first past) (hl : listings past' = listings past ++ [items])
    (own : ∀ i ∈ items, Accepted «class» i) : Clean «class» first past' := by
  obtain ⟨pages, hp, all⟩ := h
  refine ⟨pages ++ [items], by rw [hl, hp, List.append_assoc], fun items' hi => ?_⟩
  rcases List.mem_append.mp hi with hi | hi
  · exact all items' hi
  · exact List.mem_singleton.mp hi ▸ own

theorem traces_listReady {β : Type} {f : LifecyclePage LifecycleIntent → Reporting β}
    {Q : Except (HsmError × CycleReport) β → List (Event cycleSig) → Prop} {after : Option String}
    (h : Kept initial definitions maxActions start report past)
    (answered : ∀ page past', Kept initial definitions maxActions start report past' →
      listings past' = listings past ++ [page.items] →
      (f page).run.Traces (Allowed initial backendId epoch maxActions start «class») Q past')
    (refused : ∀ e past', Kept initial definitions maxActions start report past' →
      listings past' = listings past → Q (.error (e, report)) past') :
    (leaving report (listReady epoch «class» after) >>= f).run.Traces
      (Allowed initial backendId epoch maxActions start «class») Q past := by
  have token : ∀ t, listings (past ++ [⟨.token, t⟩]) = listings past := fun t => by
    rw [listings_concat]
    exact List.append_nil _
  refine traces_leaving.mpr ?_
  unfold listReady
  cases «class» with
  | some c =>
    refine traces_context.mpr ⟨h.allowed nofun, fun t => ?_⟩
    have h := h.silent (e := ⟨.token, t⟩) rfl rfl
    refine Prog.traces_last.mpr ⟨h.allowed nofun, fun x => ?_⟩
    have kept := h.silent (e := ⟨.readyIntentsIn ⟨t, epoch, 1⟩ c after 16, x⟩) rfl rfl
    cases x with
    | error e => exact refused e _ kept (by rw [listings_concat, token]; exact List.append_nil _)
    | ok page => exact answered page _ kept (by rw [listings_concat, token]; rfl)
  | none =>
    refine traces_context.mpr ⟨h.allowed nofun, fun t => ?_⟩
    have h := h.silent (e := ⟨.token, t⟩) rfl rfl
    refine Prog.traces_last.mpr ⟨h.allowed nofun, fun x => ?_⟩
    have kept := h.silent (e := ⟨.readyIntents ⟨t, epoch, 1⟩ after 16, x⟩) rfl rfl
    cases x with
    | error e => exact refused e _ kept (by rw [listings_concat, token]; exact List.append_nil _)
    | ok page => exact answered page _ kept (by rw [listings_concat, token]; rfl)

theorem traces_executePage {first : List (Event cycleSig)} {after : Option String}
    (h : Kept initial definitions maxActions start report past)
    (left : report.executed < maxActions)
    (clean : Clean «class» first past) :
    (executePage definitions backendId epoch owner maxActions «class» (after, report)).run.Traces
      (Allowed initial backendId epoch maxActions start «class») (fun r past' => match r with
        | .ok (.inl state) => Kept initial definitions maxActions start state.2 past' ∧
            state.2.executed < maxActions ∧ Clean «class» first past'
        | .ok (.inr report) => Passed initial definitions maxActions start «class»
            first past' (.ok report)
        | .error e => Passed initial definitions maxActions start «class» first past'
            (.error e)) past := by
  refine traces_listReady h (fun page past' kept hl => ?_) fun e past' kept hl => ?_
  · have last : (listings past').getLast? = some ([] ++ page.items) := by rw [hl]; simp
    refine Prog.traces_run_bind.mpr ((traces_executeItems kept left last
      fun _ hi => (List.not_mem_nil hi).elim).mono (fun _ _ h => h) ?_)
    rintro (⟨e, report'⟩ | report' | report') past'' h
    · exact ⟨h.1, .inr h.2⟩
    · obtain ⟨kept, left, same, own⟩ := h
      have clean := clean.listing (same.trans hl) own
      dsimp only
      split
      · exact Prog.traces_ret.mpr ⟨kept, .inl clean⟩
      · exact Prog.traces_ret.mpr ⟨kept, left, clean⟩
    · exact Prog.traces_ret.mpr ⟨h.1, .inr h.2⟩
  · obtain ⟨pages, hp, all⟩ := clean
    exact ⟨kept.left, .inl ⟨pages, hl.trans hp, all⟩⟩

theorem traces_executeReady {fuel : Nat}
    (h : Kept initial definitions maxActions start report past) :
    (executeReady fuel definitions backendId epoch owner maxActions «class» report).run.Traces
      (Allowed initial backendId epoch maxActions start «class»)
      (fun r past' => Passed initial definitions maxActions start «class» past past' r) past := by
  have clean : Clean «class» past past := ⟨[], (List.append_nil _).symm, nofun⟩
  unfold executeReady
  split
  · rename_i full
    exact Prog.traces_ret.mpr ⟨h, .inl clean⟩
  · rename_i left
    refine Prog.traces_loop
      (I := fun _ state past' => Kept initial definitions maxActions start state.2 past' ∧
      state.2.executed < maxActions ∧ Clean «class» past past') ?_ ?_
        ⟨h, Nat.lt_of_not_le left, clean⟩
    · exact fun state past' h => Prog.traces_op.mpr ⟨h.1.allowed nofun, nofun⟩
    · rintro n ⟨after, report⟩ past' ⟨h, left, clean⟩
      refine (@traces_executePage _ _ _ _ _ _ _ _ _ report _ after h left clean).mono
        (fun _ _ h => h) ?_
      rintro (e | state | report) past h
      · exact h
      · exact h
      · exact h

/-! ## The rest of a cycle runs nothing -/

def Counted (initial definitions : Definitions) (maxActions start : Nat)
    (past : List (Event cycleSig)) :
    Except (HsmError × CycleReport) CycleReport → Prop
  | .ok report => Kept initial definitions maxActions start report past
  | .error (_, report) => Left maxActions start report past

theorem Passed.counted {first : List (Event cycleSig)}
    {r : Except (HsmError × CycleReport) CycleReport}
    (h : Passed initial definitions maxActions start «class» first past r) :
    Counted initial definitions maxActions start past r := by
  cases r with
  | ok report => exact h.1
  | error e => exact h.1

theorem traces_sealAll {data : List DataKey}
    (h : Kept initial definitions maxActions start report past) :
    (sealAll data).run.Traces (Allowed initial backendId epoch maxActions start «class»)
      (fun _ past' => Kept initial definitions maxActions start report past') past := by
  induction data generalizing past with
  | nil => exact Prog.traces_ret.mpr h
  | cons data rest ih =>
    refine Prog.traces_call.mpr ⟨h.allowed nofun, fun x => ?_⟩
    have kept := h.silent (e := ⟨.sealOrdinary data, x⟩) rfl rfl
    cases x with
    | error e => exact kept
    | ok _ => exact ih kept

theorem traces_scanBatch {policy : LifecyclePolicy} {examined : Nat}
    (h : Kept initial definitions maxActions start report past) :
    (scanBatch epoch policy (examined, report)).run.Traces
      (Allowed initial backendId epoch maxActions start «class»)
      (fun r past' => match r with
        | .ok (.inl state) => Kept initial definitions maxActions start state.2 past'
        | .ok (.inr report) => Counted initial definitions maxActions start past' (.ok report)
        | .error e => Counted initial definitions maxActions start past' (.error e)) past := by
  refine traces_leaving_context.mpr ⟨h.allowed nofun, fun t => ?_⟩
  have h := h.silent (e := ⟨.token, t⟩) rfl rfl
  refine traces_leaving_call.mpr ⟨h.allowed nofun, fun x => ?_⟩
  have h := h.silent (e := ⟨.scanScheduled ⟨t, epoch, 1⟩ policy.id
    (min 256 (policy.selection.scanBudget - examined)), x⟩) rfl rfl
  cases x with
  | error e => exact h.left
  | ok batch =>
    have kept : Kept initial definitions maxActions start
        { report with admitted := report.admitted + batch.admitted.length } _ :=
      ⟨h.ran, h.budget, h.current⟩
    refine traces_leaving.mpr ((traces_sealAll kept).mono (fun _ _ h => h) ?_)
    rintro (e | _) past' h
    · exact h.left
    · dsimp only
      split
      · exact Prog.traces_ret.mpr h
      · exact Prog.traces_ret.mpr h

theorem traces_scanPolicy {fuel : Nat} {policy : LifecyclePolicy}
    (h : Kept initial definitions maxActions start report past) :
    (scanPolicy fuel epoch policy report).run.Traces
      (Allowed initial backendId epoch maxActions start «class»)
      (fun r past' => Counted initial definitions maxActions start past' r) past := by
  refine Prog.traces_loop
    (I := fun _ state past' => Kept initial definitions maxActions start state.2 past') ?_ ?_ h
  · exact fun state past' h => Prog.traces_op.mpr ⟨h.allowed nofun, nofun⟩
  · rintro n ⟨examined, report⟩ past' h
    refine (traces_scanBatch h).mono (fun _ _ h => h) ?_
    rintro (e | state | report) past h
    · exact h
    · exact h
    · exact h

theorem traces_scanPolicies {fuel : Nat} {selected : List LifecyclePolicy}
    (h : Kept initial definitions maxActions start report past) :
    (scanPolicies fuel epoch selected report).run.Traces
      (Allowed initial backendId epoch maxActions start «class»)
      (fun r past' => Counted initial definitions maxActions start past' r) past := by
  induction selected generalizing report past with
  | nil => exact Prog.traces_ret.mpr h
  | cons policy rest ih =>
    refine Prog.traces_run_bind.mpr ((traces_scanPolicy h).mono (fun _ _ h => h) ?_)
    rintro (e | report) past h
    · exact h
    · exact ih h

theorem traces_sealPending {fuel : Nat} {data : List DataKey}
    (h : Kept initial definitions maxActions start report past) :
    (sealPending fuel backendId epoch owner maxActions definitions «class» data report).run.Traces
      (Allowed initial backendId epoch maxActions start «class»)
      (fun r past' => Counted initial definitions maxActions start past' r) past := by
  induction data generalizing report past with
  | nil => exact Prog.traces_ret.mpr h
  | cons data rest ih =>
    refine traces_leaving_call.mpr ⟨h.allowed nofun, fun x => ?_⟩
    have kept := h.silent (e := ⟨.sealOrdinary data, x⟩) rfl rfl
    cases x with
    | error e => exact kept.left
    | ok _ =>
    refine Prog.traces_run_bind.mpr ((traces_executeReady kept).mono (fun _ _ h => h) ?_)
    rintro (e | report) past h
    · exact h.1
    · exact ih h.1

theorem traces_definitions {fuel : Nat} (h : Kept [] [] maxActions start report past) :
    (Cycle.definitions fuel epoch).run.Traces (Allowed [] backendId epoch maxActions start «class»)
      (fun r past' => match r with
        | .ok definitions => Kept [] definitions maxActions start report past'
        | .error _ => Left maxActions start report past') past := by
  refine Prog.traces_loop
    (I := fun _ state past' => Kept [] state.2 maxActions start report past') ?_ ?_ h
  · exact fun state past' h => Prog.traces_op.mpr ⟨h.allowed nofun, nofun⟩
  · rintro n ⟨after, definitions⟩ past' h
    refine traces_context.mpr ⟨h.allowed nofun, fun t => ?_⟩
    have h := h.silent (e := ⟨.token, t⟩) rfl rfl
    refine Prog.traces_call.mpr ⟨h.allowed nofun, fun x => ?_⟩
    cases x with
    | error e => exact (h.silent (e := ⟨.policies ⟨t, epoch, 1⟩ after 16, .error e⟩) rfl rfl).left
    | ok page =>
      have kept : Kept []
          (page.items.foldl (fun result policy => result.insert policy) definitions)
            maxActions start report
          (past' ++ [⟨.token, t⟩] ++ [⟨.policies ⟨t, epoch, 1⟩ after 16, .ok page⟩]) := by
        refine ⟨?_, h.budget, ?_⟩
        · rw [ran_concat, ← h.ran]
          rfl
        · intro id
          rw [current_concat, lookup_page, h.current]
          rfl
      dsimp only
      split
      · exact Prog.traces_ret.mpr kept
      · exact Prog.traces_ret.mpr kept

theorem kept_emptyReport {lane : String} : Kept [] [] maxActions 0 (emptyReport lane) [] :=
  ⟨rfl, Nat.zero_le _, fun _ => rfl⟩

theorem traces_sharedCycle {fuel : Nat} :
    (sharedCycle fuel backendId epoch owner maxActions «class»).run.Traces
      (Allowed [] backendId epoch maxActions 0 «class»)
      (fun r past' => ∃ definitions, Counted [] definitions maxActions 0 past' r) [] := by
  have refused : ∀ {e : HsmError} {report : CycleReport} {past : List (Event cycleSig)},
      Left maxActions 0 report past → ∃ definitions, Counted [] definitions maxActions 0 past
        (.error (e, report)) := fun h => ⟨[], h⟩
  have h : Kept [] [] maxActions 0 (emptyReport («class».elim "all" WorkClass.asStr)) [] :=
    kept_emptyReport
  refine traces_leaving_call.mpr ⟨h.allowed nofun, fun x => ?_⟩
  have h := h.silent (e := ⟨.gcBatch, x⟩) rfl rfl
  refine traces_leaving.mpr ((traces_definitions h).mono (fun _ _ h => h) ?_)
  rintro (e | definitions) past h
  · exact refused h
  refine Prog.traces_run_bind.mpr ((traces_executeReady h).mono (fun _ _ h => h) ?_)
  rintro (⟨e, report⟩ | report) past h
  · exact refused h.1
  have h := h.1
  refine traces_leaving_call.mpr ⟨h.allowed nofun, fun x => ?_⟩
  have h := h.silent (e := ⟨.pendingSeals, x⟩) rfl rfl
  cases x with
  | error e => exact refused h.left
  | ok seals =>
    refine Prog.traces_run_bind.mpr ((traces_sealPending h).mono (fun _ _ h => h) ?_)
    rintro (⟨e, report⟩ | report) past h
    · exact refused h
    refine Prog.traces_run_bind.mpr ((traces_scanPolicies h).mono (fun _ _ h => h) ?_)
    rintro (⟨e, report⟩ | report) past h
    · exact refused h
    exact (traces_executeReady h).mono (fun _ _ h => h) fun _ _ h => ⟨definitions, h.counted⟩

theorem traces_sharedTurn {fuel : Nat} {lane : WorkClass} :
    (sharedTurn fuel backendId epoch owner maxActions lane).run.Traces
      (Allowed [] backendId epoch maxActions 0 (some lane))
      (fun r past' => ∃ definitions, Counted [] definitions maxActions 0 past' r) [] := by
  unfold sharedTurn
  split
  · exact traces_sharedCycle
  · exact (traces_executeReady kept_emptyReport).mono (fun _ _ h => h) fun _ _ h => ⟨[], h.counted⟩

theorem traces_laneTurn {fuel : Nat} {lane : WorkClass} :
    (laneTurn fuel backendId epoch owner maxActions lane).run.Traces
      (Allowed [] backendId epoch maxActions 0 (some lane)) (fun _ _ => True) [] :=
  traces_outcome.mpr (traces_sharedTurn.mono (fun _ _ h => h) fun _ _ _ => trivial)

/-- The shared report as a pass or a cycle leaves it, whether it has gone through or not. -/
def leftReport : Except (HsmError × CycleReport) CycleReport → CycleReport
  | .ok report | .error (_, report) => report

theorem Counted.left {calls : List (Event cycleSig)}
    {r : Except (HsmError × CycleReport) CycleReport}
    (h : Counted initial definitions maxActions start calls r) :
    Left maxActions start (leftReport r) calls := by
  cases r with
  | error x => exact h
  | ok report => exact Kept.left h

/-- A cycle, or a turn of a lane, runs at most its actions, and only work of its lane that is
listed, open to its epoch and for its backend. Wherever it ends, its report counts what has been
run, if the results could be printed. A pass that has been listed other work ends there with an
integrity error, or has ended before with its actions used up or with the error of a run. -/
theorem cycle_keeps_budget (fuel : Nat) (backendId : String) (epoch : Nat) (owner : String)
    (maxActions : Nat) :
    (∀ «class»,
      (∀ past o, (sharedCycle fuel backendId epoch owner maxActions «class»).Makes past o →
        Allowed [] backendId epoch maxActions 0 «class» past o) ∧
      ∀ calls r, (sharedCycle fuel backendId epoch owner maxActions «class»).Ends calls r →
        ran calls ≤ maxActions ∧ (Printed calls → ran calls = (leftReport r).executed)) ∧
    (∀ lane, (∀ past o, (sharedTurn fuel backendId epoch owner maxActions lane).Makes past o →
        Allowed [] backendId epoch maxActions 0 (some lane) past o) ∧
      ∀ calls r, (sharedTurn fuel backendId epoch owner maxActions lane).Ends calls r →
        ran calls ≤ maxActions ∧ (Printed calls → ran calls = (leftReport r).executed)) ∧
    ∀ definitions «class» report calls r, report.executed ≤ maxActions →
      (executeReady fuel definitions backendId epoch owner maxActions «class» report).Ends calls r →
      report.executed + ran calls ≤ maxActions ∧
      (Printed calls → report.executed + ran calls = (leftReport r).executed) ∧
      ((∀ items ∈ listings calls, ∀ i ∈ items, Accepted «class» i) ∨
        (∃ report', r = .error (otherClass, report')) ∨
        (∃ report', r = .ok report' ∧ report'.executed = maxActions) ∨
        ∃ e report', r = .error (e, report') ∧ Broken calls e) := by
  have counted : ∀ {definitions : Definitions} {calls : List (Event cycleSig)}
      {r : Except (HsmError × CycleReport) CycleReport},
      Counted [] definitions maxActions 0 calls r →
      ran calls ≤ maxActions ∧ (Printed calls → ran calls = (leftReport r).executed) := by
    intro definitions calls r h
    have left := h.left
    rw [← Nat.zero_add (ran calls)]
    exact ⟨left.budget, left.counted⟩
  refine ⟨fun «class» => ⟨fun past o hm => traces_sharedCycle.makes hm, fun calls r he => ?_⟩,
    fun lane => ⟨fun past o hm => traces_sharedTurn.makes hm, fun calls r he => ?_⟩, ?_⟩
  · obtain ⟨_, h⟩ := traces_sharedCycle.ends he
    exact counted h
  · obtain ⟨_, h⟩ := traces_sharedTurn.ends he
    exact counted h
  · intro definitions «class» report calls r budget he
    have kept : Kept definitions definitions maxActions report.executed report [] :=
      ⟨rfl, budget, fun _ => rfl⟩
    have passed : Passed definitions definitions maxActions report.executed «class» [] calls r :=
      (traces_executeReady kept).ends he
    have left := passed.counted.left
    refine ⟨left.budget, left.counted, ?_⟩
    have clean : Clean «class» [] calls → ∀ items ∈ listings calls, ∀ i ∈ items,
      Accepted «class» i := by
      rintro ⟨pages, hp, all⟩
      rw [hp]
      exact all
    cases r with
    | ok report' =>
      rcases passed.2 with h | full
      · exact .inl (clean h)
      · exact .inr (.inr (.inl ⟨report', rfl, full⟩))
    | error x =>
      obtain ⟨e, report'⟩ := x
      rcases passed.2 with h | rfl | broken
      · exact .inl (clean h)
      · exact .inr (.inl ⟨report', rfl⟩)
      · exact .inr (.inr (.inr ⟨e, report', rfl, broken⟩))

def task (id : String) (action : ManagedAction) : LifecycleIntent :=
  ⟨id, "p", 1, 1, ⟨⟨⟨"s", "n", "e"⟩, 1⟩, 1, .online, 0, ⟨"unsealed", []⟩, []⟩,
    action, ⟨id, 1, 1⟩, .ready,
    none, none, none⟩

def recallTask : LifecycleIntent := task "i" (.«recall» ⟨"b", "o"⟩)

def archiveTask : LifecycleIntent := task "j" (.archive ⟨"b", "o"⟩)

def turnCalls : List (Event cycleSig) :=
  [⟨.token, "t1"⟩, ⟨.readyIntentsIn ⟨"t1", 1, 1⟩ .«recall» none 16, .ok ⟨[recallTask], none⟩⟩,
    ⟨.token, "t2"⟩, ⟨.runIntent ⟨"t2", 1, 1⟩ "i" "w", .ok recallTask⟩, ⟨.print recallTask, .ok ()⟩]

theorem ends_turn : (sharedTurn 1 "b" 1 "w" 1 .«recall»).Ends turnCalls
    (.ok ⟨"recall", 0, 1, 0, 1⟩) := by
  refine .op (x := "t1") rfl ?_
  refine .op (x := (.ok ⟨[recallTask], none⟩ : HsmResult (LifecyclePage LifecycleIntent))) rfl ?_
  refine .op (x := "t2") rfl ?_
  refine .op (x := (.ok recallTask : HsmResult LifecycleIntent)) rfl ?_
  refine .op (x := (.ok () : HsmResult Unit)) rfl ?_
  exact .ret _ _

theorem cycle_keeps_budget_turn : ran turnCalls = 1 ∧
    Allowed [] "b" 1 1 0 (some .«recall») (turnCalls.take 3) (.runIntent ⟨"t2", 1, 1⟩ "i" "w") := by
  obtain ⟨allowed, counted⟩ := (cycle_keeps_budget 1 "b" 1 "w" 1).2.1 .«recall»
  refine ⟨(counted _ _ ends_turn).2 (by simp [Printed, turnCalls]), allowed _ _ ?_⟩
  refine .later (x := "t1") rfl ?_
  refine .later (x := (.ok ⟨[recallTask], none⟩ : HsmResult (LifecyclePage LifecycleIntent))) rfl ?_
  refine .later (x := "t2") rfl ?_
  exact .torn rfl

/-- A pass of the background lane that is listed an archive and then a recall, and has one
action. -/
def passCalls : List (Event cycleSig) :=
  [⟨.token, "t1"⟩,
    ⟨.readyIntentsIn ⟨"t1", 1, 1⟩ .background none 16, .ok ⟨[archiveTask, recallTask], none⟩⟩,
    ⟨.token, "t2"⟩, ⟨.runIntent ⟨"t2", 1, 1⟩ "j" "w", .ok archiveTask⟩,
      ⟨.print archiveTask, .ok ()⟩]

/-- It does not get to the recall, and ends well. -/
theorem pass_ends_before : ¬ ∀ fuel definitions backendId epoch owner maxActions
    «class» report calls r,
    report.executed ≤ maxActions →
    (executeReady fuel definitions backendId epoch owner maxActions «class» report).Ends calls r →
    (∃ items ∈ listings calls, ∃ i ∈ items, ¬ Accepted «class» i) →
    ∃ report', r = .error (otherClass, report') := by
  intro claim
  have ends : (executeReady 1 [] "b" 1 "w" 1 (some .background) ⟨"background", 0, 0, 0, 0⟩).Ends
      passCalls (.ok ⟨"background", 0, 1, 0, 1⟩) := by
    refine .op (x := "t1") rfl ?_
    refine .op (x := (.ok ⟨[archiveTask, recallTask], none⟩ :
      HsmResult (LifecyclePage LifecycleIntent))) rfl ?_
    refine .op (x := "t2") rfl ?_
    refine .op (x := (.ok archiveTask : HsmResult LifecycleIntent)) rfl ?_
    refine .op (x := (.ok () : HsmResult Unit)) rfl ?_
    exact .ret _ _
  have other : ¬ Accepted (some .background) recallTask := fun h =>
    nomatch (h .background rfl).mp ⟨_, rfl⟩
  obtain ⟨report', h⟩ := claim _ _ _ _ _ _ _ _ _ _ (Nat.zero_le _) ends
    ⟨[archiveTask, recallTask], List.mem_singleton.mpr rfl, recallTask, by simp, other⟩
  cases h

end Cycle

end HsmRs
