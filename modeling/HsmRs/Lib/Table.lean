import Mathlib.Data.Finmap

/-! # Tables

Finite maps with values of one type, and a search over the stored values.
-/

namespace HsmRs

abbrev Table (κ ν : Type) := Finmap fun _ : κ => ν

namespace Table

variable {κ ν : Type} [DecidableEq κ]

def Any (p : ν → Prop) (m : Table κ ν) : Prop := ∃ x ∈ m.entries, p x.2

omit [DecidableEq κ] in
instance (p : ν → Prop) [DecidablePred p] (m : Table κ ν) : Decidable (m.Any p) :=
  Multiset.decidableExistsMultiset

theorem any_iff {p : ν → Prop} {m : Table κ ν} :
    m.Any p ↔ ∃ k v, m.lookup k = some v ∧ p v := by
  constructor
  · rintro ⟨⟨k, v⟩, hm, hp⟩
    exact ⟨k, v, Finmap.lookup_eq_some_iff.mpr hm, hp⟩
  · rintro ⟨k, v, hm, hp⟩
    exact ⟨⟨k, v⟩, Finmap.lookup_eq_some_iff.mp hm, hp⟩

theorem not_any_iff {p : ν → Prop} {m : Table κ ν} :
    ¬ m.Any p ↔ ∀ k v, m.lookup k = some v → ¬ p v := by
  rw [any_iff]
  push Not
  rfl

theorem lookup_insert (m : Table κ ν) (k k' : κ) (v : ν) :
    (m.insert k v).lookup k' = if k' = k then some v else m.lookup k' := by
  split
  · rename_i h
    rw [h, Finmap.lookup_insert]
  · exact Finmap.lookup_insert_of_ne m ‹_›

theorem lookup_erase (m : Table κ ν) (k k' : κ) :
    (m.erase k).lookup k' = if k' = k then none else m.lookup k' := by
  split
  · rename_i h
    rw [h, Finmap.lookup_erase]
  · exact Finmap.lookup_erase_ne ‹_›

theorem insert_eq_erase (m : Table κ ν) (k : κ) (v : ν) :
    m.insert k v = (m.erase k).insert k v := by
  apply Finmap.ext_lookup
  intro x
  rw [lookup_insert, lookup_insert, lookup_erase]
  split <;> rfl

theorem insert_of_lookup {m : Table κ ν} {k : κ} {v : ν} (h : m.lookup k = some v) :
    m.insert k v = m := by
  apply Finmap.ext_lookup
  intro x
  rw [lookup_insert]
  split
  · rename_i hx
    rw [hx, h]
  · rfl

theorem erase_of_lookup {m : Table κ ν} {k : κ} (h : m.lookup k = none) : m.erase k = m := by
  apply Finmap.ext_lookup
  intro x
  rw [lookup_erase]
  split
  · rename_i hx
    rw [hx, h]
  · rfl

/-! ## Edits -/

def edit (m : Table κ ν) : Option (κ × Option ν) → Table κ ν
  | none => m
  | some (k, some v) => m.insert k v
  | some (k, none) => m.erase k

def Edits (e : Option (κ × Option ν)) (k : κ) : Prop := ∃ x, e = some (k, x)

omit [DecidableEq κ] in
theorem not_edits {k : κ} : ¬ Edits (none : Option (κ × Option ν)) k := by
  rintro ⟨x, hx⟩
  cases hx

omit [DecidableEq κ] in
theorem edits_iff {k k' : κ} {x : Option ν} : Edits (some (k, x)) k' ↔ k' = k := by
  constructor
  · rintro ⟨y, hy⟩
    cases hy
    rfl
  · rintro rfl
    exact ⟨x, rfl⟩

theorem lookup_edit_of_not {m : Table κ ν} {e : Option (κ × Option ν)} {k : κ} (h : ¬ Edits e k) :
    (m.edit e).lookup k = m.lookup k := by
  have other : ∀ {k' x}, e = some (k', x) → k ≠ k' := by
    rintro k' x rfl rfl
    exact h ⟨x, rfl⟩
  rcases e with _ | ⟨k', _ | v⟩
  · rfl
  · rw [edit, lookup_erase, if_neg (other rfl)]
  · rw [edit, lookup_insert, if_neg (other rfl)]

theorem lookup_edit (m : Table κ ν) (k : κ) (x : Option ν) :
    (m.edit (some (k, x))).lookup k = x := by
  cases x <;> simp [edit]

theorem edit_comm {m : Table κ ν} {e e' : Option (κ × Option ν)}
    (h : ∀ k, Edits e k → ¬ Edits e' k) : (m.edit e).edit e' = (m.edit e').edit e := by
  apply Finmap.ext_lookup
  intro k
  by_cases hk : Edits e k
  · rw [lookup_edit_of_not (h k hk)]
    obtain ⟨x, rfl⟩ := hk
    rw [lookup_edit, lookup_edit]
  · rw [lookup_edit_of_not hk]
    by_cases hk' : Edits e' k
    · obtain ⟨x, rfl⟩ := hk'
      rw [lookup_edit, lookup_edit]
    · rw [lookup_edit_of_not hk', lookup_edit_of_not hk', lookup_edit_of_not hk]

/-- The edit stores a value of `mine` under a key of `N`, or erases one. -/
structure Guards (mine : ν → Prop) (N : κ → Prop) (m : Table κ ν) (e : Option (κ × Option ν)) :
    Prop where
  stored : ∀ k v, e = some (k, some v) → N k ∧ mine v
  erased : ∀ k, e = some (k, none) → ∃ v, m.lookup k = some v ∧ mine v

namespace Guards

variable {mine mine' : ν → Prop} {N N' : κ → Prop} {m : Table κ ν} {e e' : Option (κ × Option ν)}

theorem keep : Guards mine N m none := ⟨nofun, nofun⟩

theorem store {k : κ} {v : ν} (hk : N k) (hv : mine v) : Guards mine N m (some (k, some v)) where
  stored := by
    rintro _ _ ⟨⟩
    exact ⟨hk, hv⟩
  erased := nofun

theorem drop {k : κ} {v : ν} (hl : m.lookup k = some v) (hv : mine v) :
    Guards mine N m (some (k, none)) where
  stored := nofun
  erased := by
    rintro _ ⟨⟩
    exact ⟨v, hl, hv⟩

/-- What is edited is a new key or has a value of `mine`. -/
theorem edits (h : Guards mine N m e) {k : κ} (hk : Edits e k) :
    N k ∨ ∃ v, m.lookup k = some v ∧ mine v := by
  obtain ⟨_ | v, rfl⟩ := hk
  · exact .inr (h.erased k rfl)
  · exact .inl (h.stored k v rfl).1

theorem lookup (h : Guards mine N m e) {k : κ} (hn : ¬ N k)
    (hm : ∀ v, m.lookup k = some v → ¬ mine v) : (m.edit e).lookup k = m.lookup k := by
  refine lookup_edit_of_not fun hk => ?_
  rcases h.edits hk with hn' | ⟨v, hv, hv'⟩
  · exact hn hn'
  · exact hm v hv hv'

theorem lookup_iff (h : Guards mine N m e) (new : ∀ k, N k → m.lookup k = none) {k : κ} {v : ν}
    (hv : ¬ mine v) : (m.edit e).lookup k = some v ↔ m.lookup k = some v := by
  by_cases hk : Edits e k
  · obtain ⟨_ | x, rfl⟩ := hk
    · obtain ⟨y, hy, hm⟩ := h.erased k rfl
      rw [lookup_edit, hy]
      constructor
      · exact nofun
      · rintro ⟨⟩
        exact (hv hm).elim
    · obtain ⟨hN, hx⟩ := h.stored k x rfl
      rw [lookup_edit, new k hN]
      constructor
      · rintro ⟨⟩
        exact (hv hx).elim
      · exact nofun
  · rw [lookup_edit_of_not hk]

theorem any_iff (h : Guards mine N m e) (new : ∀ k, N k → m.lookup k = none) {p : ν → Prop}
    (hp : ∀ v, p v → ¬ mine v) : (m.edit e).Any p ↔ m.Any p := by
  rw [Table.any_iff, Table.any_iff]
  constructor
  · rintro ⟨k, v, hl, hv⟩
    exact ⟨k, v, (h.lookup_iff new (hp v hv)).mp hl, hv⟩
  · rintro ⟨k, v, hl, hv⟩
    exact ⟨k, v, (h.lookup_iff new (hp v hv)).mpr hl, hv⟩

theorem apart (h : Guards mine N m e) (h' : Guards mine' N' m e')
    (new : ∀ k, N k ∨ N' k → m.lookup k = none) (hN : ∀ k, N k → ¬ N' k)
    (hm : ∀ v, mine v → ¬ mine' v) (k : κ) (hk : Edits e k) : ¬ Edits e' k := by
  intro hk'
  rcases h.edits hk with hn | ⟨v, hv, hv'⟩ <;> rcases h'.edits hk' with hn' | ⟨x, hx, hx'⟩
  · exact hN k hn hn'
  · rw [new k (.inl hn)] at hx
    cases hx
  · rw [new k (.inr hn')] at hv
    cases hv
  · rw [hv] at hx
    cases hx
    exact hm v hv' hx'

end Guards

/-! ## What the stored values carry -/

section

variable {γ : Type} {f : ν → Option γ}

/-- What `f` finds in the stored values, as often as it is stored. -/
def gather (f : ν → Option γ) (m : Table κ ν) : Multiset γ := m.entries.filterMap fun x => f x.2

omit [DecidableEq κ] in
@[simp] theorem gather_empty : gather f (∅ : Table κ ν) = 0 := rfl

theorem mem_gather {m : Table κ ν} {c : γ} :
    c ∈ gather f m ↔ ∃ k v, m.lookup k = some v ∧ f v = some c := by
  simp only [gather, Multiset.mem_filterMap, Sigma.exists, Finmap.lookup_eq_some_iff]

theorem gather_insert (m : Table κ ν) (k : κ) (v : ν) :
    gather f (m.insert k v) = (f v).elim 0 singleton + gather f (m.erase k) := by
  rw [insert_eq_erase]
  unfold gather
  rw [Finmap.entries_insert_of_notMem Finmap.notMem_erase_self, Multiset.filterMap_cons]
  cases f v <;> rfl

theorem gather_eq {m : Table κ ν} {k : κ} {v : ν} (h : m.lookup k = some v) :
    gather f m = (f v).elim 0 singleton + gather f (m.erase k) := by
  rw [← gather_insert, insert_of_lookup h]

theorem gather_key {m : Table κ ν} {k k' : κ} {v v' : ν} {c : γ} (hm : (gather f m).Nodup)
    (h : m.lookup k = some v) (hv : f v = some c) (h' : m.lookup k' = some v')
    (hv' : f v' = some c) :
    k = k' := by
  by_contra hk
  have found : c ∈ gather f (m.erase k) :=
    mem_gather.mpr ⟨k', v', by rw [lookup_erase, if_neg (Ne.symm hk), h'], hv'⟩
  rw [gather_eq h, hv] at hm
  exact (Multiset.nodup_cons.mp hm).1 found

end

end Table

end HsmRs
