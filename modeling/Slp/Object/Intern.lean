import Slp.Object.Basic
import Slp.Table.Probing
import Mathlib.Data.Nat.Bitwise

/-!
# Interned strings

Every string of the machine is interned: `internString` returns the string object that already
has the given bytes, or allocates one and enters it into `vm->interned`, a table with linear
probing whose capacity is a power of two.  The table grows when it is half full, so that the probe
loops, which have no bound of their own, meet a free cell.

`Interned` is the invariant that all of this relies on; `internString` keeps it
(`internString_interned`), and under it the probe for the bytes of a string finds that string
(`Interned.probe_eq`).
-/

namespace Slp

/-- The string object at an address. -/
def Heap.string? (h : Heap) (r : Ref) : Option StringObj :=
  match h.get? r with
  | some (.string s) => some s
  | _ => none

/-- The addresses of the string objects of a heap, in list order. -/
def Heap.strings (h : Heap) : List Ref :=
  h.filterMap fun c => match c.obj with
    | .string _ => some c.ref
    | _ => none

/-- `slp_hash_string`. -/
def hashString (key : Bytes) : UInt32 :=
  let hash := key.foldl (fun hash b => hash * 31 + b.toUInt32) 0
  let hash := hash ^^^ ((hash >>> 20) ^^^ (hash >>> 12))
  hash ^^^ (hash >>> 7) ^^^ (hash >>> 4)

namespace Intern

/-- `SLP_INTERN_INIT_CAP`. -/
def initCap : ℕ := 256

/-- The probe `while (table[idx]) idx = (idx + 1) & (capacity - 1)`; `none` when it comes round
the whole table without meeting a free cell, that is, when the loop does not end. -/
def probeFree (table : List (Option Ref)) : (fuel idx : ℕ) → Option ℕ
  | 0, _ => none
  | fuel + 1, idx =>
    match table[idx]? with
    | some none => some idx
    | _ => probeFree table fuel ((idx + 1) &&& (table.length - 1))

/-- A string is put into the first free cell from its hash on. -/
def insert (table : List (Option Ref)) (hash : UInt32) (r : Ref) :
    Option (List (Option Ref)) := do
  let idx ← probeFree table table.length (hash.toNat &&& (table.length - 1))
  return table.set idx (some r)

/-- Whether the object at `r` is a string with this hash and these bytes. -/
def isMatch (h : Heap) (hash : UInt32) (chars : Bytes) (r : Ref) : Bool :=
  match h.string? r with
  | some s => s.hash == hash && s.chars == chars
  | none => false

/-- The probe for existing bytes: an empty cell ends it, as does a full round. -/
def probeMatch (h : Heap) (table : List (Option Ref)) (hash : UInt32) (chars : Bytes) :
    (fuel idx : ℕ) → Option Ref
  | 0, _ => none
  | fuel + 1, idx =>
    match table[idx]? with
    | some (some r) =>
      if isMatch h hash chars r then some r
      else probeMatch h table hash chars fuel ((idx + 1) &&& (table.length - 1))
    | _ => none

/-- The first part of `slp_vm_intern_string`: the string that already has these bytes. -/
def probe (vm : VM) (chars : Bytes) : Option Ref :=
  match vm.interned with
  | none => none
  | some table =>
    probeMatch vm.objects table (hashString chars) chars table.length
      ((hashString chars).toNat &&& (table.length - 1))

/-- The cached hash of the string at an address. -/
def hashAt (h : Heap) (r : Ref) : UInt32 :=
  match h.string? r with
  | some s => s.hash
  | none => 0

/-- The loop of `intern_grow`: the strings of the old table enter the new one in cell order. -/
def growInto (h : Heap) (new : List (Option Ref)) :
    List (Option Ref) → Option (List (Option Ref))
  | [] => some new
  | none :: cells => growInto h new cells
  | some r :: cells => do
    let new ← insert new (hashAt h r) r
    growInto h new cells

/-- `intern_grow`. -/
def grow (h : Heap) (table : List (Option Ref)) : Option (List (Option Ref)) :=
  growInto h (List.replicate (table.length * 2) none) table

/-- The room for one more string: the first table, a table twice as large, or the table as it
is. -/
def makeRoom (vm : VM) : Option (List (Option Ref)) :=
  match vm.interned with
  | none => some (List.replicate initCap none)
  | some table =>
    if vm.internedCount * 2 ≥ table.length then grow vm.objects table else some table

/-- A new string object, as `slp_obj_string_new` makes it. -/
def newString (r : Ref) (chars : Bytes) : HeapCell := ⟨r, false, .string ⟨chars, hashString chars⟩⟩

/-- `slp_vm_intern_string`; `none` when a probe loop does not end. -/
def internString (sizeofString : ℕ) (vm : VM) (chars : Bytes) : Option (VM × Ref) :=
  match probe vm chars with
  | some r => some (vm, r)
  | none => do
    let table ← makeRoom vm
    let r := vm.objects.freshRef
    let table ← insert table (hashString chars) r
    return ({ vm with
      objects := newString r chars :: vm.objects
      bytesAllocated := vm.bytesAllocated + UInt64.ofNat (sizeofString + chars.length + 1)
      interned := some table
      internedCount := vm.internedCount + 1 }, r)

/-! ### The probes are walks of the table -/

section Walks

variable {h : Heap} {table : List (Option Ref)} {k : ℕ}

theorem land_eq_mod (hlen : table.length = 2 ^ k) (n : ℕ) :
    n &&& (table.length - 1) = n % table.length := by
  rw [hlen, Nat.and_two_pow_sub_one_eq_mod]

theorem probeFree_eq (hlen : table.length = 2 ^ k) (fuel idx : ℕ) :
    probeFree table fuel idx = Table.firstFree table fuel idx := by
  induction fuel generalizing idx with
  | zero => rfl
  | succ fuel ih =>
    simp only [probeFree, Table.firstFree, ih, land_eq_mod hlen]
    rcases table[idx]? with _ | _ | _ <;> rfl

theorem probeMatch_eq (hlen : table.length = 2 ^ k) (hash : UInt32) (chars : Bytes)
    (fuel idx : ℕ) :
    probeMatch h table hash chars fuel idx =
      Table.find table (isMatch h hash chars) fuel idx := by
  induction fuel generalizing idx with
  | zero => rfl
  | succ fuel ih =>
    simp only [probeMatch, Table.find, ih, land_eq_mod hlen]
    rcases table[idx]? with _ | _ | _ <;> rfl

/-- The home cell of the string at an address, in a table with `n` cells. -/
def home (h : Heap) (n : ℕ) (r : Ref) : ℕ := (hashAt h r).toNat % n

theorem insert_eq (hlen : table.length = 2 ^ k) (r : Ref) :
    insert table (hashAt h r) r =
      Table.place (home h table.length) table r := by
  simp only [insert, Table.place, home, probeFree_eq hlen, land_eq_mod hlen]
  rcases Table.firstFree table table.length _ with _ | _ <;> rfl

theorem growInto_eq {new : List (Option Ref)} (hlen : new.length = 2 ^ k)
    (cells : List (Option Ref)) :
    growInto h new cells = (Table.entries cells).foldlM (Table.place (home h (2 ^ k))) new := by
  induction cells generalizing new with
  | nil => rfl
  | cons c cells ih =>
    cases c with
    | none => exact ih hlen
    | some r =>
      have hent : Table.entries (some r :: cells) = r :: Table.entries cells := rfl
      rw [growInto, insert_eq hlen, hent, List.foldlM_cons, ← hlen]
      cases hp : Table.place (home h new.length) new r with
      | none => rfl
      | some t =>
        have ht : t.length = 2 ^ k := by
          simp only [Table.place, Option.map_eq_some_iff] at hp
          obtain ⟨i, -, rfl⟩ := hp
          rw [List.length_set, hlen]
        rw [hlen]
        exact ih ht

end Walks

/-! ### The invariant -/

/-- The table holds exactly the strings of the heap, and every one of them can be reached by a walk
from its home cell. -/
structure TableOk (h : Heap) (table : List (Option Ref)) : Prop where
  length_eq : ∃ k, table.length = 2 ^ (k + 1)
  entries_perm : (Table.entries table).Perm h.strings
  chained : Table.Chained (home h table.length) table

/-- The strings of the machine are interned. -/
structure Interned (vm : VM) : Prop where
  /-- The objects have distinct addresses. -/
  nodup : (vm.objects.map (·.ref)).Nodup
  /-- A string caches its hash. -/
  hash_eq : ∀ c ∈ vm.objects, ∀ s, c.obj = .string s → s.hash = hashString s.chars
  /-- No two strings have the same bytes. -/
  chars_inj : ∀ c ∈ vm.objects, ∀ c' ∈ vm.objects, ∀ s s', c.obj = .string s →
    c'.obj = .string s' → s.chars = s'.chars → c = c'
  count_eq : vm.internedCount = vm.objects.strings.length
  /-- Without a table there is no string; a table is at most half full. -/
  table : match vm.interned with
    | none => vm.objects.strings = []
    | some table => TableOk vm.objects table ∧ 2 * vm.internedCount ≤ table.length

section Lemmas

variable {vm : VM} {c : HeapCell} {s : StringObj} {r : Ref} {chars : Bytes}

theorem string?_of_mem {h : Heap} (hn : (h.map (·.ref)).Nodup) (hc : c ∈ h)
    (hs : c.obj = .string s) : h.string? c.ref = some s := by
  simp only [Heap.string?, Heap.get?_of_mem hn hc, hs]

theorem mem_strings {h : Heap} :
    r ∈ h.strings ↔ ∃ c ∈ h, c.ref = r ∧ ∃ s, c.obj = .string s := by
  simp only [Heap.strings, List.mem_filterMap]
  constructor
  · rintro ⟨c, hc, h⟩
    split at h
    · rename_i s hs
      exact ⟨c, hc, Option.some.inj h, s, hs⟩
    · cases h
  · rintro ⟨c, hc, rfl, s, hs⟩
    exact ⟨c, hc, by simp only [hs]⟩

theorem hashAt_of_mem (h : Interned vm) (hc : c ∈ vm.objects) (hs : c.obj = .string s) :
    hashAt vm.objects c.ref = hashString s.chars := by
  simp only [hashAt, string?_of_mem h.nodup hc hs, h.hash_eq c hc s hs]

theorem isMatch_iff (h : Interned vm) (hc : c ∈ vm.objects) (hs : c.obj = .string s) :
    isMatch vm.objects (hashString chars) chars c.ref = true ↔ s.chars = chars := by
  simp only [isMatch, string?_of_mem h.nodup hc hs, Bool.and_eq_true, beq_iff_eq,
    h.hash_eq c hc s hs, and_iff_right_iff_imp]
  rintro rfl
  rfl

/-- The probe for the bytes of a string finds that string. -/
theorem Interned.probe_eq (h : Interned vm) (hc : c ∈ vm.objects) (hs : c.obj = .string s) :
    probe vm s.chars = some c.ref := by
  have htab := h.table
  have hmem : c.ref ∈ vm.objects.strings := mem_strings.2 ⟨c, hc, rfl, s, hs⟩
  cases ht : vm.interned with
  | none =>
    simp only [ht] at htab
    rw [htab] at hmem
    cases hmem
  | some table =>
    simp only [ht] at htab
    obtain ⟨⟨⟨k, hlen⟩, hperm, hchain⟩, -⟩ := htab
    have hpos : 0 < table.length := hlen ▸ Nat.two_pow_pos _
    have hhome : home vm.objects table.length c.ref = (hashString s.chars).toNat % table.length := by
      rw [home, hashAt_of_mem h hc hs]
    simp only [probe, ht]
    rw [probeMatch_eq hlen, land_eq_mod hlen, ← hhome]
    refine hchain.find_eq (hperm.mem_iff.2 hmem) (hhome ▸ Nat.mod_lt _ hpos)
      ((isMatch_iff h hc hs).2 rfl) fun y hy hmatch => ?_
    obtain ⟨c', hc', rfl, s', hs'⟩ := mem_strings.1 (hperm.mem_iff.1 hy)
    rw [h.chars_inj c' hc' c hc s' s hs' hs ((isMatch_iff h hc' hs').1 hmatch)]

/-- What the probe finds is a string with the bytes asked for. -/
theorem Interned.probe_some (h : Interned vm) (hp : probe vm chars = some r) :
    ∃ c ∈ vm.objects, c.ref = r ∧ ∃ s, c.obj = .string s ∧ s.chars = chars := by
  have htab := h.table
  cases ht : vm.interned with
  | none => simp [probe, ht] at hp
  | some table =>
    simp only [ht] at htab
    obtain ⟨⟨⟨k, hlen⟩, hperm, -⟩, -⟩ := htab
    simp only [probe, ht] at hp
    rw [probeMatch_eq hlen] at hp
    obtain ⟨hmem, hmatch⟩ := Table.find_some hp
    obtain ⟨c, hc, rfl, s, hs⟩ := mem_strings.1 (hperm.mem_iff.1 hmem)
    exact ⟨c, hc, rfl, s, hs, (isMatch_iff h hc hs).1 hmatch⟩

/-- After `makeRoom` the table holds the same strings and is less than half full. -/
theorem Interned.exists_makeRoom (h : Interned vm) :
    ∃ table, makeRoom vm = some table ∧ TableOk vm.objects table ∧
      2 * (vm.internedCount + 1) ≤ table.length := by
  have htab := h.table
  cases ht : vm.interned with
  | none =>
    simp only [ht] at htab
    refine ⟨List.replicate initCap none, by simp only [makeRoom, ht], ⟨⟨7, ?_⟩, ?_, ?_⟩, ?_⟩
    · rw [List.length_replicate]; rfl
    · rw [Table.entries_replicate_none, htab]
    · exact Table.chained_replicate_none _ _
    · rw [h.count_eq, htab, List.length_replicate]; decide
  | some table =>
    simp only [ht] at htab
    obtain ⟨⟨⟨k, hlen⟩, hperm, hchain⟩, hload⟩ := htab
    by_cases hfull : vm.internedCount * 2 ≥ table.length
    · have hnew : (List.replicate (table.length * 2) (none : Option Ref)).length = 2 ^ (k + 2) := by
        rw [List.length_replicate, hlen, ← Nat.pow_succ]
      have hcount : (Table.entries table).length = vm.internedCount := by
        rw [hperm.length_eq, h.count_eq]
      obtain ⟨t, hf, htl, htp, htc⟩ := Table.exists_foldlM_place
        (home vm.objects (2 ^ (k + 2))) (Table.entries table)
        (t := List.replicate (table.length * 2) none)
        (fun r _ => hnew.symm ▸ Nat.mod_lt _ (Nat.two_pow_pos _)) (Table.chained_replicate_none _ _)
        (by rw [Table.entries_replicate_none, List.length_nil, List.length_replicate]; omega)
      rw [hnew] at htl
      refine ⟨t, ?_, ⟨⟨k + 1, htl⟩, ?_, htl ▸ htc⟩, ?_⟩
      · simp only [makeRoom, ht, if_pos hfull, grow, growInto_eq hnew]
        exact hf
      · rw [Table.entries_replicate_none, List.append_nil] at htp
        exact htp.trans hperm
      · have : 2 ^ (k + 2) = 2 ^ (k + 1) * 2 := Nat.pow_succ ..
        have := Nat.one_le_two_pow (n := k + 1)
        omega
    · refine ⟨table, by simp only [makeRoom, ht, if_neg hfull], ⟨⟨k, hlen⟩, hperm, hchain⟩, ?_⟩
      have : 2 ^ (k + 1) = 2 ^ k * 2 := Nat.pow_succ ..
      omega

theorem hashAt_newString_self (h : Heap) (r : Ref) (chars : Bytes) :
    hashAt (newString r chars :: h) r = hashString chars := by
  simp [hashAt, Heap.string?, Heap.get?_cons, newString]

theorem hashAt_newString_ne {h : Heap} {r s : Ref} (hs : s ≠ r) (chars : Bytes) :
    hashAt (newString r chars :: h) s = hashAt h s := by
  simp [hashAt, Heap.string?, Heap.get?_cons, newString, hs.symm]

/-- Interning ends, keeps the invariant and returns a string with the bytes given. -/
theorem Interned.exists_internString (h : Interned vm) (sizeofString : ℕ) (chars : Bytes) :
    ∃ vm' r, internString sizeofString vm chars = some (vm', r) ∧ Interned vm' ∧
      ∃ c ∈ vm'.objects, c.ref = r ∧ ∃ s, c.obj = .string s ∧ s.chars = chars := by
  cases hp : probe vm chars with
  | some r => exact ⟨vm, r, by simp only [internString, hp], h, h.probe_some hp⟩
  | none =>
    obtain ⟨table, hroom, ⟨⟨k, hlen⟩, hperm, hchain⟩, hload⟩ := h.exists_makeRoom
    set new := newString vm.objects.freshRef chars with hnew
    have hne : ∀ r ∈ vm.objects.strings, r ≠ vm.objects.freshRef := by
      intro r hr
      obtain ⟨c, hc, rfl, -⟩ := mem_strings.1 hr
      exact Nat.ne_of_lt (Heap.lt_freshRef hc)
    have hstr : Heap.strings (new :: vm.objects) = vm.objects.freshRef :: vm.objects.strings := rfl
    have hlt : (Table.entries table).length < table.length := by
      rw [hperm.length_eq, ← h.count_eq]; omega
    have hchain' : Table.Chained (home (new :: vm.objects) table.length) table :=
      hchain.congr fun r hr => by
        rw [home, home, hashAt_newString_ne (hne r (hperm.mem_iff.1 hr))]
    obtain ⟨t, hpl, htl, htp, htc⟩ := Table.exists_place (x := vm.objects.freshRef)
      (Nat.mod_lt _ (by omega)) hchain' hlt
    rw [← insert_eq hlen, hashAt_newString_self] at hpl
    set vm' : VM := { vm with
      objects := new :: vm.objects
      bytesAllocated := vm.bytesAllocated + UInt64.ofNat (sizeofString + chars.length + 1)
      interned := some t
      internedCount := vm.internedCount + 1 } with hvm'
    have heq : internString sizeofString vm chars = some (vm', vm.objects.freshRef) := by
      simp only [internString, hp, hroom, Option.bind_eq_bind, Option.bind_some, hpl]
      rfl
    refine ⟨vm', vm.objects.freshRef, heq, ⟨?_, ?_, ?_, ?_, ?_⟩, new, List.mem_cons_self, rfl, _, rfl,
      rfl⟩
    · rw [List.map_cons, List.nodup_cons]
      refine ⟨fun hm => ?_, h.nodup⟩
      obtain ⟨c, hc, heq⟩ := List.mem_map.1 hm
      exact Nat.ne_of_lt (Heap.lt_freshRef hc) heq
    · intro c hc s hs
      rcases List.mem_cons.1 hc with rfl | hc
      · cases hs; rfl
      · exact h.hash_eq c hc s hs
    · -- a second string with the same bytes would have been found by the probe
      have key : ∀ c ∈ vm.objects, ∀ s, c.obj = .string s → s.chars ≠ chars := by
        rintro c hc s hs rfl
        rw [h.probe_eq hc hs] at hp
        cases hp
      intro c hc c' hc' s s' hs hs' heq
      rcases List.mem_cons.1 hc with rfl | hc <;> rcases List.mem_cons.1 hc' with rfl | hc'
      · rfl
      · cases hs
        exact absurd heq.symm (key c' hc' s' hs')
      · cases hs'
        exact absurd heq (key c hc s hs)
      · exact h.chars_inj c hc c' hc' s s' hs hs' heq
    · change vm.internedCount + 1 = (Heap.strings (new :: vm.objects)).length
      rw [hstr, List.length_cons, h.count_eq]
    · exact ⟨⟨⟨k, htl.trans hlen⟩, htp.trans (hperm.cons _), htl.symm ▸ htc⟩, htl.symm ▸ hload⟩

end Lemmas

end Intern

end Slp
