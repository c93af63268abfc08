import HsmRs.Archive.Catalog

/-! # What the archive keeps

Both versions of every record are synced, every attempt has a private directory that
is there for good, and every object of the catalog has a safe and sealed payload in
one of these. Calls, openings and crashes keep this, and so do others as long as they
write payloads that are not sealed and nothing else.
-/

namespace HsmRs

open LocalArchive

variable {κ : Type} {s s' : Disk (FileName κ) (Content κ)} {root : Dir}

/-- The files of the archive that others leave alone. -/
def Guarded (root : Dir) (s : Disk (FileName κ) (Content κ)) (d : Dir) (n : FileName κ) : Prop :=
  Named d n ∧ root <:+ d ∧ (n = .data → s.lookup d .sealed ≠ none)

/-- What others do beside the archive: they may write payloads that are not sealed. -/
structure Beside (root : Dir) (s s' : Disk (FileName κ) (Content κ)) : Prop where
  files : Frame (Guarded root s) s s'
  path : ∀ p, p <:+ root → s.Grounded p → s'.Grounded p
  tree : s.Tree → s'.Tree

def Kept (root d : Dir) (n : FileName κ) : Prop := Record root d n ∨ d = root ∧ n = .backendId

theorem Kept.named {d : Dir} {n : FileName κ} (h : Kept root d n) : Named d n := by
  rcases h with hr | ⟨-, rfl⟩
  · exact hr.named
  · exact backendId_named

theorem Kept.suffix {d : Dir} {n : FileName κ} (h : Kept root d n) : root <:+ d := by
  rcases h with ⟨rfl | rfl, -⟩ | ⟨rfl, -⟩
  · exact List.suffix_cons _ _
  · exact List.suffix_cons _ _
  · exact List.suffix_refl _

/-- What is safe stays safe, and what is sealed stays sealed. -/
structure Onward (root : Dir) (s s' : Disk (FileName κ) (Content κ)) : Prop where
  path : ∀ p, p <:+ root → s.Grounded p → s'.Grounded p
  grounded : ∀ d, root <:+ d → s.Grounded d → s'.Grounded d
  kept : ∀ d n c, Kept root d n → s.Safe d n c → s'.Safe d n c
  data : ∀ d b, root <:+ d → s.Lasts d .sealed → s.Safe d .data (.bytes b) →
    s'.Safe d .data (.bytes b)
  mark : ∀ d, root <:+ d → s.Lasts d .sealed → s'.Lasts d .sealed

namespace Onward

/-- A frame that may leave out new records and a seal that is renewed. -/
theorem of {K : Dir → FileName κ → Prop} (hf : Frame K s s')
    (path : ∀ p, p <:+ root → s.Grounded p → s'.Grounded p)
    (dirs : ∀ d, root <:+ d → ∃ n, K d n)
    (kept : ∀ d n, Kept root d n → K d n ∨ s.lookup d n = none)
    (payload : ∀ d, root <:+ d → s.Lasts d .sealed →
      K d .data ∧ (K d .sealed ∨ s'.Lasts d .sealed)) : Onward root s s' where
  path := path
  grounded d hd hg := by
    obtain ⟨n, hk⟩ := dirs d hd
    exact hg.frame hf hk
  kept d n c hk hs := by
    rcases kept d n hk with h | h
    · exact hs.frame hf h
    · rw [hs.1] at h
      cases h
  data d b hd hl hs := hs.frame hf (payload d hd hl).1
  mark d hd hl := by
    rcases (payload d hd hl).2 with h | h
    · exact hl.frame hf h
    · exact h

theorem of_frame (hf : Frame Named s s') : Onward root s s' :=
  .of hf (fun _ _ hg => hg.frame (n := .data) hf fun h => h) (fun _ _ => ⟨.data, fun h => h⟩)
    (fun _ _ hk => .inl hk.named) fun _ _ _ => ⟨fun h => h, .inl sealed_named⟩

theorem of_beside (hb : Beside root s s') : Onward root s s' :=
  .of hb.files hb.path (fun _ hd => ⟨.sealed, sealed_named, hd, nofun⟩)
    (fun _ _ hk => .inl ⟨hk.named, hk.suffix, fun h => by
      rcases hk with ⟨-, n, rfl⟩ | ⟨-, rfl⟩ <;> cases h⟩)
    fun _ hd hl => ⟨⟨fun h => h, hd, fun _ => hl.1⟩, .inl ⟨sealed_named, hd, nofun⟩⟩

theorem of_opening {id : String} (h : Opening root id s s') : Onward root s s' := by
  rcases h with hf | ⟨ha, hp⟩
  · exact .of_frame hf
  have other : ∀ (d : Dir) (n : FileName κ), ¬ n.IsTemp → n ≠ .backendId →
      NamedBut root .backendId d n := fun _ _ hn hne => ⟨hn, fun h => hne h.2⟩
  refine .of hp.others (fun p _ hg => hg.frame hp.others (other p .data (fun h => h) (by simp)))
    (fun d _ => ⟨.data, other d .data (fun h => h) (by simp)⟩) (fun d n hk => ?_)
    fun d _ _ =>
      ⟨other d .data (fun h => h) (by simp), .inl (other d .sealed sealed_named (by simp))⟩
  by_cases h : d = root ∧ n = .backendId
  · rw [h.1, h.2]
    exact .inr ha
  · exact .inl ⟨hk.named, h⟩

variable [KeyHash κ] [Crates] {a : LocalArchive}

theorem of_attempted {ctx : OperationContext} {archive : ArchiveKey} {view : DataView} {u : String}
    (h : a.Attempted ctx archive view u s s') : Onward a.root s s' := by
  have hf := h.placed.others
  have other : ∀ (d : Dir) (n : FileName κ), ¬ n.IsTemp → n ≠ preparedPath ctx archive →
      NamedBut (attemptsDir a.root) (preparedPath ctx archive) d n :=
    fun _ _ hn hne => ⟨hn, fun h => hne h.2⟩
  have data := fun d : Dir => other d .data (fun h => h) (by simp [preparedPath])
  refine .of hf (fun p _ hg => hg.frame hf (data p)) (fun d _ => ⟨.data, data d⟩) (fun d n hk => ?_)
    fun d _ _ => ⟨data d, .inl (other d .sealed sealed_named (by simp [preparedPath]))⟩
  by_cases hn : d = attemptsDir a.root ∧ n = preparedPath ctx archive
  · rw [hn.1, hn.2]
    exact .inr h.absent
  · exact .inl ⟨hk.named, hn⟩

omit [KeyHash κ] in
theorem of_sealed {payload : Dir} {view : DataView} {b : Bytes} (h : Sealed payload view b s s') :
    Onward root s s' := by
  have hf := h.others
  obtain ⟨v, hp⟩ := h.mark
  have data : ∀ d, NamedBut payload .sealed d (.data : FileName κ) := fun d => ⟨fun h => h, by simp⟩
  refine .of hf (fun p _ hg => hg.frame hf (data p)) (fun d _ => ⟨.data, data d⟩) (fun d n hk => ?_)
    fun d _ hl => ⟨data d, ?_⟩
  · refine .inl ⟨hk.named, ?_⟩
    rcases hk with ⟨-, n, rfl⟩ | ⟨-, rfl⟩ <;> simp
  · by_cases hd : d = payload
    · subst hd
      exact .inr (hp.lasts hl)
    · exact .inl ⟨sealed_named, fun h => hd h.1⟩

theorem of_published {target : ArchiveTarget} {view : DataView} {payload : Dir} {b : Bytes}
    {u : String} (h : a.Published target view payload b u s s') : Onward a.root s s' := by
  have hf := h.others
  have other : ∀ (d : Dir) (n : FileName κ), ¬ n.IsTemp → n ≠ .sealed →
      n ≠ receiptName target.key → a.Untouched target.key payload d n :=
    fun _ _ hn hs hr => ⟨⟨hn, fun h => hs h.2⟩, hn, fun h => hr h.2⟩
  have data := fun d : Dir => other d .data (fun h => h) (by simp) (by simp [receiptName])
  refine .of hf (fun p _ hg => hg.frame hf (data p)) (fun d _ => ⟨.data, data d⟩) (fun d n hk => ?_)
    fun d _ hl => ⟨data d, ?_⟩
  · by_cases hn : d = objectsDir a.root ∧ n = receiptName target.key
    · rw [hn.1, hn.2]
      exact .inr h.absent
    · refine .inl ⟨⟨hk.named, ?_⟩, hk.named, hn⟩
      rcases hk with ⟨-, n, rfl⟩ | ⟨-, rfl⟩ <;> simp
  · by_cases hd : d = payload
    · subst hd
      exact .inr (h.mark.elim fun _ hs => hs.lasts)
    · exact .inl ⟨⟨sealed_named, fun h => hd h.1⟩, sealed_named, by simp [receiptName]⟩

theorem of_commits {ctx : OperationContext} {target : ArchiveTarget} {view : DataView}
    (h : a.Commits ctx target view s s') : Onward a.root s s' := by
  rcases h with hf | ⟨-, -, payload, -, hf | hs | hp⟩
  · exact .of_frame hf
  · exact .of_frame hf
  · exact .of_sealed hs
  · exact .of_published hp

theorem of_moves {c : BackendCall} (h : a.Moves s s' c) : Onward a.root s s' := by
  cases h with
  | still hf => exact .of_frame hf
  | prepared ha => exact .of_attempted ha
  | resumed hc => exact .of_commits hc
  | committed hc => exact .of_commits hc

end Onward

/-! ## Records and payloads -/

/-- The private directory of an attempt is there for good. -/
def Houses (root : Dir) (u : String) (s : Disk (FileName κ) (Content κ)) : Prop :=
  s.Grounded (attemptsDir root) ∧ s.Grounded (u :: attemptsDir root)

theorem suffix_private {u : String} : root <:+ u :: attemptsDir root :=
  (List.suffix_cons _ root).trans (List.suffix_cons _ _)

theorem Houses.onward {u : String} (h : Houses root u s) (ho : Onward root s s') :
    Houses root u s' :=
  ⟨ho.grounded _ (List.suffix_cons _ _) h.1, ho.grounded _ suffix_private h.2⟩

theorem Houses.powerLoss {u : String} (h : Houses root u s) (hp : s.PowerLoss s')
    (hr : s'.dir root = true) : Houses root u s' := by
  have attempts : s'.Grounded (attemptsDir root) := h.1.powerLoss hp <| by
    rintro _ _ ⟨⟩
    exact hr
  refine ⟨attempts, h.2.powerLoss hp ?_⟩
  rintro _ _ ⟨⟩
  exact attempts.1

variable [Crates]

/-- The payload of an object: safe and sealed bytes that its receipt attests. -/
structure Payload (root : Dir) (o : Committed) (u : String) (b : Bytes)
    (s : Disk (FileName κ) (Content κ)) : Prop where
  destination : o.payload = endpoint (u :: attemptsDir root)
  houses : Houses root u s
  data : s.Safe (u :: attemptsDir root) .data (.bytes b)
  mark : s.Lasts (u :: attemptsDir root) .sealed
  length : o.receipt.length = b.length
  digest : o.receipt.digest = digestOf b

namespace Payload

variable {o : Committed} {u : String} {b : Bytes}

theorem onward (h : Payload root o u b s) (ho : Onward root s s') : Payload root o u b s' :=
  ⟨h.destination, h.houses.onward ho, ho.data _ _ suffix_private h.mark h.data,
    ho.mark _ suffix_private h.mark, h.length, h.digest⟩

theorem powerLoss (h : Payload root o u b s) (hp : s.PowerLoss s') (hr : s'.dir root = true) :
    Payload root o u b s' := by
  have hh := h.houses.powerLoss hp hr
  have hd := hp.lookup_safe hh.2.1 h.data.1 h.data.2
  exact ⟨h.destination, hh, ⟨hd, by rw [hp.safeFile]; exact hd⟩, h.mark.powerLoss hp hh.2.1,
    h.length, h.digest⟩

theorem backed (h : Payload root o u b s) : o.Backed (u :: attemptsDir root) b s :=
  ⟨⟨_, by rw [h.destination, decodeEndpoint_endpoint], rfl⟩, ⟨true, h.data.1⟩, h.length, h.digest⟩

end Payload

/-- What both versions of the records of an archive say is so. -/
structure Stored (root : Dir) (s : Disk (FileName κ) (Content κ)) : Prop where
  identity : ∀ f, s.Has root .backendId f → f.synced = true
  attempt : ∀ h f, s.Has (attemptsDir root) (.hashed h) f → f.synced = true ∧
    ∃ p u, f.content = .prepared p ∧ p.target.destination = endpoint (u :: attemptsDir root) ∧
      Houses root u s
  object : ∀ h f, s.Has (objectsDir root) (.hashed h) f → f.synced = true ∧
    ∃ o u b, f.content = .committed o ∧ Payload root o u b s

namespace Stored

theorem synced (h : Stored root s) {d : Dir} {n : FileName κ} (hk : Kept root d n)
    (f : File (Content κ)) (hf : s.Has d n f) : f.synced = true := by
  rcases hk with ⟨rfl | rfl, k, rfl⟩ | ⟨rfl, rfl⟩
  · exact (h.object k f hf).1
  · exact (h.attempt k f hf).1
  · exact h.identity f hf

theorem onward (h : Stored root s) (ho : Onward root s s')
    (old : ∀ d n f, Kept root d n → s'.Has d n f → s.Has d n f) : Stored root s' := by
  refine ⟨fun f hf => h.identity f (old _ _ f (.inr ⟨rfl, rfl⟩) hf), fun k f hf =>
    ?_, fun k f hf => ?_⟩
  · obtain ⟨hs, p, u, hc, hd, hh⟩ := h.attempt k f (old _ _ f (.inl ⟨.inr rfl, k, rfl⟩) hf)
    exact ⟨hs, p, u, hc, hd, hh.onward ho⟩
  · obtain ⟨hs, o, u, b, hc, hp⟩ := h.object k f (old _ _ f (.inl ⟨.inl rfl, k, rfl⟩) hf)
    exact ⟨hs, o, u, b, hc, hp.onward ho⟩

theorem frame {K : Dir → FileName κ → Prop} (h : Stored root s) (ho : Onward root s s')
    (hf : Frame K s s') (hk : ∀ d n, Kept root d n → K d n) : Stored root s' :=
  h.onward ho fun d n _ hd hv => hv.of_frame hf (hk d n hd) (h.synced hd)

theorem still (h : Stored root s) (hf : Frame Named s s') : Stored root s' :=
  h.frame (.of_frame hf) hf fun _ _ => Kept.named

theorem beside (h : Stored root s) (hb : Beside root s s') : Stored root s' := by
  refine h.frame (.of_beside hb) hb.files fun d n hk => ⟨hk.named, hk.suffix, fun he => ?_⟩
  rcases hk with ⟨-, k, rfl⟩ | ⟨-, rfl⟩ <;> cases he

theorem powerLoss (h : Stored root s) (hp : s.PowerLoss s') : Stored root s' := by
  have tree := hp.tree
  refine ⟨fun f hf => ?_, fun k f hf => ?_, fun k f hf => ?_⟩
  · exact h.identity f (hf.of_powerLoss hp h.identity).2
  · obtain ⟨hd, hv⟩ := hf.of_powerLoss hp (h.synced (.inl ⟨.inr rfl, k, rfl⟩))
    obtain ⟨hs, p, u, hc, he, hh⟩ := h.attempt k f hv
    exact ⟨hs, p, u, hc, he, hh.powerLoss hp (tree _ _ hd)⟩
  · obtain ⟨hd, hv⟩ := hf.of_powerLoss hp (h.synced (.inl ⟨.inl rfl, k, rfl⟩))
    obtain ⟨hs, o, u, b, hc, hy⟩ := h.object k f hv
    exact ⟨hs, o, u, b, hc, hy.powerLoss hp (tree _ _ hd)⟩

theorem opening {id : String} (h : Stored root s) (hw : Opening root id s s') : Stored root s' := by
  have ho : Onward root s s' := .of_opening hw
  rcases hw with hf | ⟨-, hp⟩
  · exact h.still hf
  have other : ∀ (d : Dir) (k : κ), NamedBut root .backendId d (.hashed k) :=
    fun d k => ⟨hashed_named k, by simp⟩
  refine ⟨fun f hf => ?_, fun k f hf => ?_, fun k f hf => ?_⟩
  · rcases hp.has hf h.identity with hv | rfl
    · exact h.identity f hv
    · rfl
  · have hk : Kept root (attemptsDir root) (.hashed k : FileName κ) := .inl ⟨.inr rfl, k, rfl⟩
    obtain ⟨hs, p, u, hc, he, hh⟩ := h.attempt k f (hf.of_frame hp.others (other _ k) (h.synced hk))
    exact ⟨hs, p, u, hc, he, hh.onward ho⟩
  · have hk : Kept root (objectsDir root) (.hashed k : FileName κ) := .inl ⟨.inl rfl, k, rfl⟩
    obtain ⟨hs, o, u, b, hc, hy⟩ := h.object k f (hf.of_frame hp.others (other _ k) (h.synced hk))
    exact ⟨hs, o, u, b, hc, hy.onward ho⟩

variable [KeyHash κ] {a : LocalArchive}

theorem attempted {ctx : OperationContext} {archive : ArchiveKey} {view : DataView} {u : String}
    (h : Stored a.root s) (hg : s.Grounded (attemptsDir a.root))
    (ha : a.Attempted ctx archive view u s s') : Stored a.root s' := by
  have ho : Onward a.root s s' := .of_attempted ha
  have hp := ha.placed
  have other : ¬ objectsDir a.root = attemptsDir a.root := by simp [objectsDir, attemptsDir]
  refine ⟨fun f hf => ?_, fun k f hf => ?_, fun k f hf => ?_⟩
  · refine h.identity f (hf.of_frame hp.others ⟨backendId_named, ?_⟩ h.identity)
    simp [preparedPath]
  · have hk : Kept a.root (attemptsDir a.root) (.hashed k : FileName κ) := .inl ⟨.inr rfl, k, rfl⟩
    have old : s.Has (attemptsDir a.root) (.hashed k) f ∨ f = ⟨.prepared ⟨ctx, archive, view,
        ⟨archive, endpoint (u :: attemptsDir a.root)⟩⟩, true⟩ := by
      by_cases hn : (.hashed k : FileName κ) = preparedPath ctx archive
      · rw [hn] at hf hk ⊢
        exact hp.has hf (h.synced hk)
      · exact .inl (hf.of_frame hp.others ⟨hashed_named k, fun h => hn h.2⟩ (h.synced hk))
    rcases old with hv | rfl
    · obtain ⟨hs, p, u, hc, he, hh⟩ := h.attempt k f hv
      exact ⟨hs, p, u, hc, he, hh.onward ho⟩
    · exact ⟨rfl, _, u, rfl, rfl, ho.grounded _ (List.suffix_cons _ _) hg, ha.dir, ha.safe⟩
  · have hk : Kept a.root (objectsDir a.root) (.hashed k : FileName κ) := .inl ⟨.inl rfl, k, rfl⟩
    obtain ⟨hs, o, u, b, hc, hy⟩ := h.object k f
      (hf.of_frame hp.others ⟨hashed_named k, fun h => other h.1⟩ (h.synced hk))
    exact ⟨hs, o, u, b, hc, hy.onward ho⟩

/-- A commitment seals the directory of a recorded attempt before its object enters the
catalog. -/
theorem commits {ctx : OperationContext} {target : ArchiveTarget} {view : DataView}
    (h : Stored a.root s) (hm : a.Commits ctx target view s s') : Stored a.root s' := by
  have ho : Onward a.root s s' := .of_commits hm
  rcases hm with hf | ⟨⟨p, x, hl, -, ht, -⟩, ha, payload, ⟨e, hd, hr⟩, hf | hs | hp⟩
  · exact h.still hf
  · exact h.still hf
  · refine h.frame ho hs.others fun d n hk => ⟨hk.named, ?_⟩
    rcases hk with ⟨-, k, rfl⟩ | ⟨-, rfl⟩ <;> simp
  · have other : ¬ attemptsDir a.root = objectsDir a.root := by simp [objectsDir, attemptsDir]
    have untouched : ∀ (d : Dir) (n : FileName κ), Kept a.root d n →
        ¬ (d = objectsDir a.root ∧ n = receiptName target.key) →
        a.Untouched target.key payload d n := by
      intro d n hk hn
      refine ⟨⟨hk.named, ?_⟩, hk.named, hn⟩
      rcases hk with ⟨-, k, rfl⟩ | ⟨-, rfl⟩ <;> simp
    have old : ∀ {d n f}, Kept a.root d n → ¬ (d = objectsDir a.root ∧ n = receiptName target.key) →
        s'.Has d n f → s.Has d n f := fun hk hn hf =>
      hf.of_frame hp.others (untouched _ _ hk hn) (h.synced hk)
    refine ⟨fun f hf => ?_, fun k f hf => ?_, fun k f hf => ?_⟩
    · refine h.identity f (old (.inr ⟨rfl, rfl⟩) ?_ hf)
      simp [receiptName]
    · obtain ⟨hs, p, u, hc, he, hh⟩ :=
        h.attempt k f (old (.inl ⟨.inr rfl, k, rfl⟩) (fun h => other h.1) hf)
      exact ⟨hs, p, u, hc, he, hh.onward ho⟩
    · have hk : Kept a.root (objectsDir a.root) (.hashed k : FileName κ) := .inl ⟨.inl rfl, k, rfl⟩
      have catalog : s.Has (objectsDir a.root) (.hashed k) f ∨ ∃ u, f =
          ⟨.committed ⟨attest view target.key u, target.destination⟩, true⟩ := by
        by_cases hn : (.hashed k : FileName κ) = receiptName target.key
        · rw [hn] at hf ⊢
          rcases hf with hv | hv
          · rw [hp.object] at hv
            exact .inr ⟨_, (Option.some.inj hv).symm⟩
          · rcases hp.objectSafe with he | he | he
            · exact .inl (.inr (he.symm.trans hv))
            · rw [he] at hv
              cases hv
            · rw [he] at hv
              exact .inr ⟨_, (Option.some.inj hv).symm⟩
        · exact .inl (old hk (fun h => hn h.2) hf)
      rcases catalog with hv | ⟨u, rfl⟩
      · obtain ⟨hs, o, u, b, hc, hy⟩ := h.object k f hv
        exact ⟨hs, o, u, b, hc, hy.onward ho⟩
      · obtain ⟨-, p', v, hc, he, hh⟩ := h.attempt _ _ (.inl hl)
        cases hc
        rw [ht] at he
        rw [he, decodeEndpoint_endpoint] at hd
        cases hd
        subst hr
        refine ⟨rfl, _, v, _, rfl, he, hh.onward ho, hp.data, ?_, hp.bytes.length, hp.bytes.digest⟩
        exact hp.mark.elim fun _ hs => hs.lasts

theorem moves {c : BackendCall} (h : Stored a.root s) (hg : s.Grounded (attemptsDir a.root))
    (hm : a.Moves s s' c) : Stored a.root s' := by
  cases hm with
  | still hf => exact h.still hf
  | prepared ha => exact h.attempted hg ha
  | resumed hc => exact h.commits hc
  | committed hc => exact h.commits hc

end Stored

end HsmRs
