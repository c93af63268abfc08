import HsmRs.Local.Util
import HsmRs.Lib.Exec

/-! # An instance of the library functions

Concrete functions with the properties the development assumes of BLAKE3 and of
the JSON encoding, on which programs can be executed. Keys are compared by what
they are made of. Payloads and endpoints of a small store are hashed and encoded
as the libraries do, all others by an injective code.
-/

namespace HsmRs

namespace Reference

scoped instance : KeyHash Keyed := ⟨id⟩

theorem key_injective : Function.Injective (key : Keyed → Keyed) := fun _ _ h => h

/-! ## A code for endpoints -/

def encodeChar (c : Char) : Bytes :=
  [1, .ofNat (c.toNat % 256), .ofNat (c.toNat / 256 % 256), .ofNat (c.toNat / 65536)]

def encodeString (s : String) : Bytes := s.toList.flatMap encodeChar ++ [0]

def encodeDir (d : Dir) : Bytes := d.flatMap (fun s => 1 :: encodeString s) ++ [0]

def decodeChars : Bytes → Option (List Char × Bytes)
  | 0 :: rest => some ([], rest)
  | 1 :: a :: b :: c :: rest =>
      (decodeChars rest).map fun x =>
        (Char.ofNat (a.toNat + 256 * b.toNat + 65536 * c.toNat) :: x.1, x.2)
  | _ => none

theorem decodeChars_encode (cs : List Char) (rest : Bytes) :
    decodeChars (cs.flatMap encodeChar ++ 0 :: rest) = some (cs, rest) := by
  induction cs with
  | nil => rfl
  | cons c cs ih =>
    have hc : c.toNat / 65536 < 256 := by
      have hv : c.toNat < 0xd800 ∨ 0xdfff < c.toNat ∧ c.toNat < 0x110000 := c.valid
      omega
    simp only [List.flatMap_cons, encodeChar, List.cons_append, List.nil_append, decodeChars, ih,
      Option.map_some, UInt8.toNat_ofNat', Nat.reducePow, Nat.mod_mod, Nat.mod_eq_of_lt hc]
    have : c.toNat % 256 + 256 * (c.toNat / 256 % 256) + 65536 * (c.toNat / 65536) = c.toNat := by
      omega
    rw [this, Char.ofNat_toNat]

def decodeString (b : Bytes) : Option (String × Bytes) :=
  (decodeChars b).map fun x => (String.ofList x.1, x.2)

theorem decodeString_encode (s : String) (rest : Bytes) :
    decodeString (encodeString s ++ rest) = some (s, rest) := by
  simp [decodeString, encodeString, decodeChars_encode, String.ofList_toList]

def decodeDir : Nat → Bytes → Option (Dir × Bytes)
  | _, 0 :: rest => some ([], rest)
  | n + 1, 1 :: rest => do
      let (s, rest) ← decodeString rest
      let (d, rest) ← decodeDir n rest
      return (s :: d, rest)
  | _, _ => none

theorem decodeDir_encode (d : Dir) (rest : Bytes) {n : Nat} (h : d.length ≤ n) :
    decodeDir n (encodeDir d ++ rest) = some (d, rest) := by
  induction d generalizing n with
  | nil => cases n <;> rfl
  | cons s d ih =>
    cases n with
    | zero => simp at h
    | succ n =>
      have he : encodeDir (s :: d) ++ rest = 1 :: (encodeString s ++ (encodeDir d ++ rest)) := by
        simp [encodeDir]
      rw [he, decodeDir, decodeString_encode]
      simp [ih (Nat.le_of_succ_le_succ h)]

theorem length_le_encodeDir (d : Dir) : d.length ≤ (encodeDir d).length := by
  induction d with
  | nil => simp
  | cons s d ih =>
    simp only [encodeDir, List.flatMap_cons, List.length_append, List.length_cons] at ih ⊢
    omega

def encodeEndpoint (e : LocalEndpoint) : Bytes :=
  (if e.isAbsolute then 1 else 0) :: (encodeDir e.root ++ encodeString e.path)

def decodeEndpoint : Bytes → Option LocalEndpoint
  | b :: rest => do
      let (root, rest) ← decodeDir rest.length rest
      let (path, _) ← decodeString rest
      return ⟨b = 1, root, path⟩
  | [] => none

theorem decodeEndpoint_encode (e : LocalEndpoint) :
    decodeEndpoint (encodeEndpoint e) = some e := by
  obtain ⟨a, root, path⟩ := e
  have hl : root.length ≤ (encodeDir root ++ encodeString path).length := by
    have := length_le_encodeDir root
    simp only [List.length_append]
    omega
  have hs := decodeString_encode path []
  rw [List.append_nil] at hs
  simp only [encodeEndpoint, decodeEndpoint, decodeDir_encode root _ hl, Option.bind_eq_bind,
    Option.bind_some, hs]
  cases a <;> rfl

/-! ## The libraries on a small store -/

def path (root : Dir) : String := root.reverse.foldl (fun p c => p ++ "/" ++ c) ""

/-- What `serde_json` makes of an endpoint whose path needs no escapes. -/
def json (e : LocalEndpoint) : Bytes :=
  ("\x7b\"root\":\"" ++ path e.root ++ "\",\"path\":\"" ++ e.path ++ "\"\x7d").toUTF8.data.toList

def small : List LocalEndpoint :=
  ["u0", "u1", "u2", "u3", "u4", "u5"].flatMap fun u =>
    [⟨true, [u, "layouts", "s"], "data"⟩, ⟨true, [u, "attempts", "a"], "data"⟩]

def toVec (e : LocalEndpoint) : Bytes := if e ∈ small then json e else encodeEndpoint e

def fromSlice (b : Bytes) : Except String LocalEndpoint :=
  match small.find? fun e => json e = b with
  | some e => .ok e
  | none => match decodeEndpoint b with
    | some e => .ok e
    | none => .error "expected value at line 1 column 1"

theorem fromSlice_toVec (e : LocalEndpoint) : fromSlice (toVec e) = .ok e := by
  unfold toVec
  split
  · have : ∀ e ∈ small, small.find? (fun e' => json e' = json e) = some e := by decide
    simp [fromSlice, this e ‹_›]
  · have head : ∀ e' ∈ small, (json e').head? = some 123 := by decide
    have : small.find? (fun e' => json e' = encodeEndpoint e) = none := by
      rw [List.find?_eq_none]
      intro e' he' hj
      have := head e' he'
      rw [of_decide_eq_true hj] at this
      unfold encodeEndpoint at this
      split at this <;> simp at this
    simp [fromSlice, this, decodeEndpoint_encode]

/-- The BLAKE3 hashes of no bytes and of one zero byte. -/
def blake3Empty : Bytes :=
  [0xaf, 0x13, 0x49, 0xb9, 0xf5, 0xf9, 0xa1, 0xa6, 0xa0, 0x40, 0x4d,
   0xea, 0x36, 0xdc, 0xc9, 0x49, 0x9b, 0xcb, 0x25, 0xc9, 0xad, 0xc1,
   0x12, 0xb7, 0xcc, 0x9a, 0x93, 0xca, 0xe4, 0x1f, 0x32, 0x62]

def blake3Zero : Bytes :=
  [0x2d, 0x3a, 0xde, 0xdf, 0xf1, 0x1b, 0x61, 0xf1, 0x4c, 0x88, 0x6e,
   0x35, 0xaf, 0xa0, 0x36, 0x73, 0x6d, 0xcd, 0x87, 0xa7, 0x4d, 0x27,
   0xb5, 0xc1, 0x51, 0x2, 0x25, 0xd0, 0xf5, 0x92, 0xe2, 0x13]

def blake3 (b : Bytes) : Bytes :=
  if b = [] then blake3Empty else if b = [0] then blake3Zero else List.replicate 33 0 ++ b

theorem length_blake3 {b : Bytes} (h : b ≠ []) (h' : b ≠ [0]) : 32 < (blake3 b).length := by
  have : (blake3 b).length = 33 + b.length := by
    rw [blake3, if_neg h, if_neg h', List.length_append, List.length_replicate]
  omega

theorem blake3_injective : Function.Injective blake3 := by
  have empty : blake3 [] = blake3Empty ∧ blake3Empty.length = 32 := by decide
  have zero : blake3 [0] = blake3Zero ∧ blake3Zero.length = 32 := by decide
  have distinct : blake3Empty ≠ blake3Zero := by decide
  have known : ∀ b, (blake3 b).length = 32 → b = [] ∨ b = [0] := fun b hb => by
    by_contra hn
    rw [not_or] at hn
    have := length_blake3 hn.1 hn.2
    omega
  intro a b h
  by_cases ha : (blake3 a).length = 32
  · rcases known a ha with rfl | rfl <;> rcases known b (h ▸ ha) with rfl | rfl
    · rfl
    · exact (distinct (empty.1.symm.trans (h.trans zero.1))).elim
    · exact (distinct (empty.1.symm.trans (h.symm.trans zero.1))).elim
    · rfl
  · have hb : (blake3 b).length ≠ 32 := h ▸ ha
    have other : ∀ c, (blake3 c).length ≠ 32 → c ≠ [] ∧ c ≠ [0] := by
      rintro c hc
      constructor <;> rintro rfl
      · exact hc (by rw [empty.1, empty.2])
      · exact hc (by rw [zero.1, zero.2])
    obtain ⟨a₁, a₂⟩ := other a ha
    obtain ⟨b₁, b₂⟩ := other b hb
    rw [blake3, if_neg a₁, if_neg a₂, blake3, if_neg b₁, if_neg b₂] at h
    exact List.append_cancel_left h

scoped instance : Crates where
  blake3 := blake3
  toVec := toVec
  fromSlice := fromSlice
  fromSlice_toVec := fromSlice_toVec

/-! ## An empty disk -/

def blank : Disk (FileName Keyed) (Content Keyed) where
  dir d := d ∈ [[], ["s"], ["a"]]
  file _ _ := none
  safeDir d := d ∈ [[], ["s"], ["a"]]
  safeFile _ _ := none
  locked _ _ := false
  issued _ := false

def anything : Policy (FileName Keyed) (Content Keyed) where
  uuid s u := s.issued u = false
  faults := true
  exact := false

theorem anything_generous : anything.Generous := fun _ _ h => h

theorem anything_fresh : anything.Fresh := fun _ _ h => h

end Reference

end HsmRs
