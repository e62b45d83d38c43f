import Slp.Object.Intern

/-!
# Cells, arrays and hashes

Reading through scalar cells and taint wrappers, pushing onto an array, and storing into a hash
table.  A loop of the source that follows a chain of cells, or that looks for a free slot of a
table, is bounded here by the number of objects, or of slots.
-/

namespace Slp

/-! ### Cells and taint -/

/-- The loop of `dereference_value`, over at most `fuel` cells. -/
def Heap.derefLoop (h : Heap) : (fuel : ℕ) → Value → Value
  | 0, v => v
  | fuel + 1, .obj r =>
    match h.get? r with
    | some (.scalarCell v _) => derefLoop h fuel v
    | _ => .obj r
  | _ + 1, v => v

/-- `dereference_value`. -/
def Heap.dereferenceValue (h : Heap) (v : Value) : Value := h.derefLoop h.length v

/-- The loop of `slp_value_unwrap_taint`, over at most `fuel` wrappers. -/
def Heap.unwrapLoop (h : Heap) : (fuel : ℕ) → Value → Value
  | 0, v => v
  | fuel + 1, .obj r =>
    match h.get? r with
    | some (.tainted v) => unwrapLoop h fuel v
    | _ => .obj r
  | _ + 1, v => v

/-- `slp_value_unwrap_taint`. -/
def Heap.unwrapTaint (h : Heap) (v : Value) : Value := h.unwrapLoop h.length v

/-- `slp_value_is_tainted`. -/
def Heap.isTainted (h : Heap) (v : Value) : Bool :=
  match h.dereferenceValue v with
  | .obj r => match h.get? r with
    | some (.tainted _) => true
    | _ => false
  | _ => false

/-! ### Arrays -/

namespace ArrayObj

/-- The doubling loop of `ensure_array_capacity`. -/
def doubleUntil (needed : ℕ) : (fuel capacity : ℕ) → ℕ
  | 0, capacity => capacity
  | fuel + 1, capacity => if capacity < needed then doubleUntil needed fuel (capacity * 2) else capacity

/-- `ensure_array_capacity`: new storage is null. -/
def ensureCapacity (a : ArrayObj) (needed : ℕ) : ArrayObj :=
  if needed ≤ a.elements.length then a
  else
    let capacity := doubleUntil needed needed
      (if a.elements.length = 0 then 8 else a.elements.length * 2)
    { a with elements := a.elements ++ List.replicate (capacity - a.elements.length) .null }

/-- `slp_obj_array_push` on an array that is not a view. -/
def push (a : ArrayObj) (v : Value) : ArrayObj :=
  let a := a.ensureCapacity (a.count + 1)
  { a with
    elements := a.elements.set a.count v
    count := a.count + 1
    mutationVersion := a.mutationVersion + 1 }

/-- The live elements. -/
def live (a : ArrayObj) : List Value := a.elements.take a.count

theorem le_doubleUntil {needed fuel capacity : ℕ} (hpos : 0 < capacity)
    (h : needed ≤ capacity + fuel) : needed ≤ doubleUntil needed fuel capacity := by
  induction fuel generalizing capacity with
  | zero => simpa [doubleUntil] using h
  | succ fuel ih =>
    rw [doubleUntil]
    split_ifs with hlt
    · exact ih (by omega) (by omega)
    · omega

theorem ensureCapacity_count (a : ArrayObj) (needed : ℕ) :
    (a.ensureCapacity needed).count = a.count := by
  unfold ensureCapacity
  split_ifs <;> rfl

theorem le_length_ensureCapacity (a : ArrayObj) (needed : ℕ) :
    needed ≤ (a.ensureCapacity needed).elements.length := by
  by_cases h : needed ≤ a.elements.length
  · rw [ensureCapacity, if_pos h]
    exact h
  · rw [ensureCapacity, if_neg h]
    simp only [List.length_append, List.length_replicate]
    have hle : needed ≤ doubleUntil needed needed
        (if a.elements.length = 0 then 8 else a.elements.length * 2) :=
      le_doubleUntil (by split_ifs <;> omega) (Nat.le_add_left _ _)
    exact hle.trans (by rw [← Nat.sub_le_iff_le_add'])

theorem take_ensureCapacity {a : ArrayObj} {n : ℕ} (h : n ≤ a.elements.length) (needed : ℕ) :
    (a.ensureCapacity needed).elements.take n = a.elements.take n := by
  by_cases hn : needed ≤ a.elements.length
  · rw [ensureCapacity, if_pos hn]
  · rw [ensureCapacity, if_neg hn]
    exact List.take_append_of_le_length h

/-- Pushing appends to the live elements. -/
theorem live_push {a : ArrayObj} (h : a.count ≤ a.elements.length) (v : Value) :
    (a.push v).live = a.live ++ [v] := by
  have hlen := le_length_ensureCapacity a (a.count + 1)
  simp only [live, push, ensureCapacity_count]
  rw [List.take_add_one, List.getElem?_set_self (by omega), List.take_set_of_le (Nat.le_refl _),
    take_ensureCapacity h]
  rfl

theorem count_le_push {a : ArrayObj} (v : Value) :
    (a.push v).count ≤ (a.push v).elements.length := by
  have hlen := le_length_ensureCapacity a (a.count + 1)
  simp only [push, ensureCapacity_count, List.length_set]
  exact hlen

/-- Pushing a list of values onto an array appends them all. -/
theorem live_foldl_push {a : ArrayObj} (h : a.count ≤ a.elements.length) (vs : List Value) :
    (vs.foldl push a).live = a.live ++ vs := by
  induction vs generalizing a with
  | nil => simp
  | cons v vs ih => rw [List.foldl_cons, ih (count_le_push v), live_push h, List.append_assoc]; rfl

end ArrayObj

/-! ### Hash tables -/

/-- The number formatting of the C library, `%.17g`, on the payload of a number outside the int
range and on a double. -/
structure Printf where
  num : ℤ → Bytes
  double : UInt64 → Bytes

namespace HashObj

/-- `hash_key_repr`; `none` for an object that has no key text. -/
def keyRepr (fmt : Printf) (h : Heap) (key : Value) : Option Bytes :=
  match h.unwrapTaint (h.dereferenceValue key) with
  | .null => some []
  | .bool b => some (if b then ascii "1" else [])
  | .num n =>
    if -2147483648 ≤ n ∧ n ≤ 2147483647 then some (ascii (toString n)) else some (fmt.num n)
  | .obj r =>
    match h.get? r with
    | some (.string s) => some s.chars
    | some (.long n) => some (ascii (toString n))
    | some (.double bits) =>
      let text := fmt.double bits
      if text.any fun c => c ∈ ascii ".eE" then some text else some (text ++ ascii ".0")
    | _ => none

/-- `slp_hash_value`. -/
def hashValue (fmt : Printf) (h : Heap) (key : Value) : UInt32 :=
  match keyRepr fmt h key with
  | some chars => hashString chars
  | none => match key with
    | .obj r => UInt32.ofNat r
    | _ => 0

/-- `hash_key_equals`; keys without a text are equal when they are the same object. -/
def keyEquals (fmt : Printf) (h : Heap) (left right : Value) : Bool :=
  match keyRepr fmt h left, keyRepr fmt h right with
  | some l, some r => l == r
  | _, _ => h.unwrapTaint left == h.unwrapTaint right

/-- The probe of `hash_grow` for a slot without a key. -/
def growProbe (entries : List HashEntry) : (fuel idx : ℕ) → ℕ
  | 0, idx => idx
  | fuel + 1, idx =>
    if (entries.getD idx {}).key = .null then idx
    else growProbe entries fuel ((idx + 1) &&& (entries.length - 1))

/-- `hash_grow`. -/
def grow (fmt : Printf) (h : Heap) (t : HashObj) : HashObj :=
  let capacity := if t.entries.length = 0 then 16 else t.entries.length * 2
  let put (new : List HashEntry) (e : HashEntry) : List HashEntry :=
    if e.key = .null then new
    else new.set
      (growProbe new capacity ((hashValue fmt h e.key).toNat &&& (capacity - 1))) e
  { t with entries := t.entries.foldl put (List.replicate capacity {}) }

/-- What the scan of `slp_obj_hash_set` finds for a key. -/
inductive Slot where
  /-- A slot that holds the key. -/
  | present (idx : ℕ)
  /-- The slot a new entry goes into. -/
  | free (idx : ℕ)
  /-- A full round without a slot. -/
  | full

/-- The scan of `slp_obj_hash_set`. -/
def scan (fmt : Printf) (h : Heap) (entries : List HashEntry) (key : Value) :
    (fuel idx : ℕ) → (tombstone : Option ℕ) → Slot
  | 0, _, tombstone => match tombstone with
    | some idx => .free idx
    | none => .full
  | fuel + 1, idx, tombstone =>
    let e := entries.getD idx {}
    let next := (idx + 1) &&& (entries.length - 1)
    if e.key = .null then
      if e.value = .bool true then scan fmt h entries key fuel next (tombstone.or (some idx))
      else .free (tombstone.getD idx)
    else if keyEquals fmt h e.key key then .present idx
    else scan fmt h entries key fuel next tombstone

/-- The body of `slp_obj_hash_set`, over at most `fuel` defensive growths. -/
def setLoop (fmt : Printf) (h : Heap) (key value : Value) : (fuel : ℕ) → HashObj → HashObj
  | 0, t => t
  | fuel + 1, t =>
    let t := if t.count + 1 > t.entries.length * 3 / 4 then grow fmt h t else t
    let t := if t.entries.length = 0 then grow fmt h t else t
    match scan fmt h t.entries key t.entries.length
        ((hashValue fmt h key).toNat &&& (t.entries.length - 1)) none with
    | .present idx => { t with entries := t.entries.modify idx fun e => { e with value } }
    | .free idx =>
      { t with
        entries := t.entries.set idx ⟨key, value, t.nextSequence + 1⟩
        nextSequence := t.nextSequence + 1
        count := t.count + 1 }
    | .full => setLoop fmt h key value fuel (grow fmt h t)

/-- `slp_obj_hash_set`: after one defensive growth the table has room. -/
def set (fmt : Printf) (h : Heap) (t : HashObj) (key value : Value) : HashObj :=
  setLoop fmt h key value 2 t

end HashObj

end Slp
