import Slp.Graph.Unfolding
import Slp.Object.WriteThrough
import Slp.Vm.Continuation

/-!
# Tainting a graph of values

* `taintValueRecursive`, `untaintValueRecursive` : the two walks over arrays, hashes and cells, bounded by
  a fuel;
* `TaintLaw` : both come to an end, all scalars are tainted and then as before, and cells stay shared;
* `TaintLaw.taintable` : **the law asks that no container is below itself, and that no value that is
  reached is a cell or tainted.**

Both walks put the content of a cell in the place of the cell.  Only the cell of a variable that is the
argument itself keeps its place.  What a walk that ends has done is `Walked`: it never comes back to a
container it is in, and takes every cell out of its slot.
-/

namespace Slp

open Graph (Acyclic Below Child)

namespace Heap

/-! ### Slots -/

/-- Where the elements or entries of an object are: of an array or a hash in itself, of a Java object
in its list or its map. -/
def storageOf (r : Ref) : Obj → Option Ref
  | .array _ | .hash _ => some r
  | .javaObject j => j.list.or j.map
  | _ => none

/-- The array or the hash that a value is, or is made of. -/
def storage? (h : Heap) : Value → Option Ref
  | .obj r => (h.get? r).bind (storageOf r)
  | _ => none

/-- All the arrays and hashes that a value is made of. -/
def storages (h : Heap) : Value → List Ref
  | .obj r => match h.get? r with
    | some (.array _) | some (.hash _) => [r]
    | some (.javaObject j) => j.list.toList ++ j.map.toList
    | _ => []
  | _ => []

/-- An element of the array, or the value of an entry of the hash that has a key and a value. -/
def slotAt (h : Heap) (r : Ref) (i : ℕ) : Option Value :=
  match h.get? r with
  | some (.array a) => if i < a.count then a.elements[i]? else none
  | some (.hash t) => match t.entries[i]? with
    | some e => if e.key = .null ∨ e.value = .null then none else some e.value
    | none => none
  | _ => none

def slotCount (h : Heap) (r : Ref) : ℕ :=
  match h.get? r with
  | some (.array a) => a.count
  | some (.hash t) => t.entries.length
  | _ => 0

/-- A slot assigned. -/
def putSlot (h : Heap) (r : Ref) (i : ℕ) (v : Value) : Heap :=
  match h.get? r with
  | some (.array a) => h.set r (.array { a with elements := a.elements.set i v })
  | some (.hash t) =>
    h.set r (.hash { t with entries := t.entries.modify i fun e => { e with value := v } })
  | _ => h

/-- The content of a cell, with its address. -/
def content? (h : Heap) : Value → Option (Ref × Value)
  | .obj r => match h.get? r with
    | some (.scalarCell w _) => some (r, w)
    | _ => none
  | _ => none

/-- The content of a cell assigned. -/
def setContent (h : Heap) (r : Ref) (v : Value) : Heap :=
  match h.get? r with
  | some (.scalarCell _ watch) => h.set r (.scalarCell v watch)
  | _ => h

/-- The values in the slots of a value that is an array, a hash, or made of one. -/
def slots (h : Heap) (v : Value) : Option (List Value) :=
  (h.storage? v).map fun r => (List.range (h.slotCount r)).filterMap (h.slotAt r)

end Heap

namespace VM

/-! ### The builtins -/

section Walk

variable (walk : VM → Value → Option (VM × Value))

/-- The loops of the two walks, over the elements of an array and over the entries of a hash. -/
def walkSlots (r : Ref) : VM → List ℕ → Option VM
  | vm, [] => some vm
  | vm, i :: is =>
    match vm.objects.slotAt r i with
    | none => walkSlots r vm is
    | some v => do
      let (vm, w) ← walk vm v
      walkSlots r { vm with objects := vm.objects.putSlot r i w } is

/-- The arrays and hashes of a value. -/
def walkStorages : List Ref → VM → Option VM
  | [], vm => some vm
  | r :: rs, vm => do
    walkStorages rs (← walkSlots walk r vm (List.range (vm.objects.slotCount r)))

/-- The walk through a cell, which gets the result for its content. -/
def walkContent (vm : VM) (r : Ref) (w : Value) : Option (VM × Value) := do
  let (vm, w) ← walk vm w
  return ({ vm with objects := vm.objects.setContent r w }, w)

end Walk

/-- `taint_value_recursive`, over at most `fuel` values one below the other. -/
def taintValueRecursive (sizeof : ObjType → ℕ) : (fuel : ℕ) → VM → Value → Option (VM × Value)
  | 0, _, _ => none
  | fuel + 1, vm, v =>
    match vm.objects.content? v with
    | some (r, w) => walkContent (taintValueRecursive sizeof fuel) vm r w
    | none =>
      if vm.objects.isTainted v then some (vm, v)
      else
        match vm.objects.storage? v with
        | some r =>
          (walkStorages (taintValueRecursive sizeof fuel) [r] vm).map fun vm => (vm, v)
        | none => some (taintValue sizeof 1 vm v)

/-- `untaint_value_recursive`. -/
def untaintValueRecursive : (fuel : ℕ) → VM → Value → Option (VM × Value)
  | 0, _, _ => none
  | fuel + 1, vm, v =>
    match vm.objects.content? v with
    | some (r, w) => walkContent (untaintValueRecursive fuel) vm r w
    | none =>
      let v := vm.objects.unwrapTaint v
      (walkStorages (untaintValueRecursive fuel) (vm.objects.storages v) vm).map fun vm => (vm, v)

end VM

/-! ### The law -/

/-- What a cell holds, and otherwise the second value. -/
def Heap.held (h : Heap) (v w : Value) : Value :=
  match h.content? v with
  | some (_, w) => w
  | none => w

/-- A position that holds `w`, `w₁` once everything is tainted, and `w₂` once it is untainted again: a
cell is still there, a scalar is tainted and then is not, and in the end everything is as before. -/
structure PositionLaw (h h₁ h₂ : Heap) (w w₁ w₂ : Value) : Prop where
  shared : h.isCell w = true → w₁ = w
  tainted : h.storage? w = none → h₁.isTainted w₁ = true
  untainted : h.storage? w = none → h₂.isTainted w₂ = false
  original : w₂ = w

/-- Both walks come to an end.  The law of a position holds for the value, or for the content of the
variable that is the argument, and for all slots below it. -/
def TaintLaw (sizeof : ObjType → ℕ) (vm : VM) (v : Value) : Prop :=
  ∃ fuel vm₁ r₁ vm₂ r₂, vm.taintValueRecursive sizeof fuel v = some (vm₁, r₁) ∧
    vm₁.untaintValueRecursive fuel (if vm.objects.isCell v then v else r₁) = some (vm₂, r₂) ∧
    PositionLaw vm.objects vm₁.objects vm₂.objects (vm.objects.held v v) (vm₁.objects.held v r₁)
      (vm₂.objects.held v r₂) ∧
    ∀ u r i w, Below vm.objects.slots [vm.objects.held v v] u → vm.objects.storage? u = some r →
      vm.objects.slotAt r i = some w → ∃ w₁ w₂, vm₁.objects.slotAt r i = some w₁ ∧
        vm₂.objects.slotAt r i = some w₂ ∧
        PositionLaw vm.objects vm₁.objects vm₂.objects w w₁ w₂

/-- No container is below itself, and no value that is reached is a cell or tainted. -/
structure Heap.Taintable (h : Heap) (v : Value) : Prop where
  bare : ∀ u, Below h.slots [h.held v v] u → h.isCell u = false ∧ h.isTainted u = false
  acyclic : Acyclic h.slots [h.held v v]

namespace Heap

variable {h h' h'' : Heap} {r q : Ref} {i j : ℕ} {u v w x y : Value} {o o' : Obj}

/-! ### Kinds of objects -/

/-- What the walks see of an object without its values. -/
inductive Layout where
  | array
  | hash
  | java (list map : Option Ref)
  | cell
  | leaf

def layoutOf : Obj → Layout
  | .array _ => .array
  | .hash _ => .hash
  | .javaObject j => .java j.list j.map
  | .scalarCell _ _ => .cell
  | _ => .leaf

def layout (h : Heap) (r : Ref) : Layout := ((h.get? r).map layoutOf).getD .leaf

theorem layout_of_get? (hr : h.get? r = some o) : h.layout r = layoutOf o := by
  rw [layout, hr]
  rfl

theorem layout_of_none (hr : h.get? r = none) : h.layout r = .leaf := by
  rw [layout, hr]
  rfl

/-- Containers are containers as before, and cells are cells. -/
structure SameKinds (h h' : Heap) : Prop where
  layout : ∀ r, h'.layout r = h.layout r

theorem SameKinds.refl (h : Heap) : SameKinds h h := ⟨fun _ => rfl⟩

theorem SameKinds.trans (hh : SameKinds h h') (hh' : SameKinds h' h'') : SameKinds h h'' :=
  ⟨fun r => (hh'.layout r).trans (hh.layout r)⟩

theorem storage?_eq_layout (h : Heap) (r : Ref) : h.storage? (.obj r) = match h.layout r with
    | .array | .hash => some r
    | .java list map => list.or map
    | _ => none := by
  show (h.get? r).bind _ = _
  cases ho : h.get? r with
  | none => rw [layout_of_none ho]; rfl
  | some o => rw [layout_of_get? ho]; cases o <;> rfl

theorem storages_eq_layout (h : Heap) (r : Ref) : h.storages (.obj r) = match h.layout r with
    | .array | .hash => [r]
    | .java list map => list.toList ++ map.toList
    | _ => [] := by
  unfold storages
  dsimp only
  cases ho : h.get? r with
  | none => rw [layout_of_none ho]
  | some o => rw [layout_of_get? ho]; cases o <;> rfl

theorem isCell_eq_layout (h : Heap) (r : Ref) : h.isCell (.obj r) = match h.layout r with
    | .cell => true
    | _ => false := by
  rw [isCell_obj]
  cases ho : h.get? r with
  | none => rw [layout_of_none ho]
  | some o => rw [layout_of_get? ho]; cases o <;> rfl

theorem isArray_iff_layout (h : Heap) (r : Ref) : (∃ a, h.get? r = some (.array a)) ↔ h.layout r = .array := by
  cases ho : h.get? r with
  | none => rw [layout_of_none ho]; simp
  | some o => rw [layout_of_get? ho]; cases o <;> simp [layoutOf]

namespace SameKinds

variable (hh : SameKinds h h')

include hh

theorem storage (v : Value) : h'.storage? v = h.storage? v := by
  cases v with
  | obj r => rw [storage?_eq_layout, storage?_eq_layout, hh.layout r]
  | _ => rfl

theorem storages (v : Value) : h'.storages v = h.storages v := by
  cases v with
  | obj r => rw [storages_eq_layout, storages_eq_layout, hh.layout r]
  | _ => rfl

theorem cell (v : Value) : h'.isCell v = h.isCell v := by
  cases v with
  | obj r => rw [isCell_eq_layout, isCell_eq_layout, hh.layout r]
  | _ => rfl

theorem array (r : Ref) : (∃ a, h'.get? r = some (.array a)) ↔ ∃ a, h.get? r = some (.array a) := by
  rw [isArray_iff_layout, isArray_iff_layout, hh.layout r]

end SameKinds

/-- An object replaced by one of its kind. -/
theorem sameKinds_set (hr : h.get? r = some o) (hlayout : layoutOf o' = layoutOf o) :
    SameKinds h (h.set r o') := by
  refine ⟨fun q => ?_⟩
  unfold layout
  rw [get?_set hr]
  split_ifs with hq
  · subst hq
    rw [hr]
    exact congrArg (fun l => (some l).getD .leaf) hlayout
  · rfl

/-! ### Slots -/

theorem lt_slotCount (hw : h.slotAt r i = some w) : i < h.slotCount r := by
  unfold slotAt at hw
  unfold slotCount
  split at hw
  · split_ifs at hw with hi
    exact hi
  · split at hw
    · exact (List.getElem?_eq_some_iff.1 ‹_›).1
    · cases hw
  · cases hw

/-- The values in the slots are the children of a value. -/
theorem child_iff : Child h.slots v w ↔ ∃ r i, h.storage? v = some r ∧ h.slotAt r i = some w := by
  unfold Child Graph.kids slots
  cases hv : h.storage? v with
  | none => simp
  | some r =>
    simp only [Option.map_some, Option.getD_some, List.mem_filterMap, List.mem_range, Option.some.injEq]
    constructor
    · rintro ⟨i, -, hw⟩
      exact ⟨r, i, rfl, hw⟩
    · rintro ⟨r', i, rfl, hw⟩
      exact ⟨i, lt_slotCount hw, hw⟩

theorem isSome_slots : (h.slots v).isSome = (h.storage? v).isSome := Option.isSome_map

theorem finite_slots (h : Heap) : {v | (h.slots v).isSome}.Finite := by
  refine (List.finite_toSet (h.map fun c => Value.obj c.ref)).subset fun v hv => ?_
  rw [Set.mem_ofPred_eq, isSome_slots] at hv
  cases v with
  | obj r =>
    obtain ⟨s, hs⟩ := Option.isSome_iff_exists.1 hv
    obtain ⟨o, ho, -⟩ := Option.bind_eq_some_iff.1 hs
    obtain ⟨c, hc, rfl, -⟩ := exists_mem_of_get? ho
    exact List.mem_map_of_mem (f := fun c : HeapCell => Value.obj c.ref) hc
  | _ => cases hv

theorem slotAt_array {a : ArrayObj} (ha : h.get? r = some (.array a)) (i : ℕ) :
    h.slotAt r i = if i < a.count then a.elements[i]? else none := by
  unfold slotAt
  rw [ha]

theorem slotAt_hash {t : HashObj} (ht : h.get? r = some (.hash t)) (i : ℕ) :
    h.slotAt r i = t.entries[i]?.bind fun e =>
      if e.key = .null ∨ e.value = .null then none else some e.value := by
  unfold slotAt
  rw [ht]
  dsimp only
  cases t.entries[i]? <;> rfl

theorem slotAt_congr (hq : h'.get? q = h.get? q) (j : ℕ) : h'.slotAt q j = h.slotAt q j := by
  unfold slotAt
  rw [hq]

/-- An element of an array may be null, the value of an entry not. -/
def MayHold (h : Heap) (r : Ref) (v : Value) : Prop := v = .null → ∃ a, h.get? r = some (.array a)

theorem mayHold_of_ne_null (hv : v ≠ .null) : h.MayHold r v := fun hnull => absurd hnull hv

theorem mayHold_of_slotAt (hx : h.slotAt r i = some x) : h.MayHold r x := by
  rintro rfl
  unfold slotAt at hx
  split at hx
  · exact ⟨_, ‹_›⟩
  · split at hx
    · split_ifs at hx with hnull
      exact absurd (.inr (Option.some.inj hx)) hnull
    · cases hx
  · cases hx

/-- A slot that is assigned holds the value, and no other slot changes. -/
theorem slotAt_putSlot (hx : h.slotAt r i = some x) (hv : h.MayHold r v) (q : Ref) (j : ℕ) :
    (h.putSlot r i v).slotAt q j = if q = r ∧ j = i then some v else h.slotAt q j := by
  cases ho : h.get? r with
  | none =>
    unfold slotAt at hx
    rw [ho] at hx
    cases hx
  | some o =>
    have hother : ∀ o', q ≠ r → (h.set r o').slotAt q j = h.slotAt q j :=
      fun o' hq => slotAt_congr (get?_set_ne hq.symm) j
    cases o with
    | array a =>
      rw [slotAt_array ho] at hx
      split_ifs at hx with hi
      obtain ⟨hlt, -⟩ := List.getElem?_eq_some_iff.1 hx
      unfold putSlot
      rw [ho]
      dsimp only
      by_cases hq : q = r
      · subst hq
        rw [slotAt_array (get?_set_self (by rw [ho]; rfl)), slotAt_array ho]
        dsimp only
        by_cases hj : j = i
        · subst hj
          rw [if_pos hi, List.getElem?_set_self hlt, if_pos ⟨rfl, rfl⟩]
        · rw [List.getElem?_set_ne (Ne.symm hj), if_neg (not_and_of_not_right _ hj)]
      · rw [hother _ hq, if_neg (not_and_of_not_left _ hq)]
    | hash t =>
      rw [slotAt_hash ho] at hx
      obtain ⟨e, he, hx⟩ := Option.bind_eq_some_iff.1 hx
      split_ifs at hx with hnull
      have hvalue : v ≠ .null := by
        intro hv'
        obtain ⟨a, ha⟩ := hv hv'
        rw [ho] at ha
        cases ha
      unfold putSlot
      rw [ho]
      dsimp only
      by_cases hq : q = r
      · subst hq
        rw [slotAt_hash (get?_set_self (by rw [ho]; rfl)), slotAt_hash ho]
        dsimp only
        rw [List.getElem?_modify]
        by_cases hj : j = i
        · subst hj
          rw [if_pos ⟨rfl, rfl⟩, he]
          simp only [↓reduceIte, Option.map_eq_map, Option.map_some, Option.bind_some]
          exact if_neg fun heq => heq.elim (fun hk => hnull (.inl hk)) hvalue
        · rw [if_neg (not_and_of_not_right _ hj)]
          simp only [Ne.symm hj, ↓reduceIte, Option.map_eq_map, Option.map_id']
      · rw [hother _ hq, if_neg (not_and_of_not_left _ hq)]
    | _ =>
      unfold slotAt at hx
      rw [ho] at hx
      cases hx

/-- An assignment to a slot is one to an array or a hash, if there is such an object. -/
theorem putSlot_eq (h : Heap) (r : Ref) (i : ℕ) (v : Value) : h.putSlot r i v = h ∨
    ∃ o o', h.get? r = some o ∧ h.putSlot r i v = h.set r o' ∧ layoutOf o' = layoutOf o ∧
      (∀ w, o ≠ .tainted w) ∧ ∀ w, o' ≠ .tainted w := by
  unfold putSlot
  split
  · rename_i a ha
    exact .inr ⟨.array a, _, ha, rfl, rfl, by simp, by simp⟩
  · rename_i t ht
    exact .inr ⟨.hash t, _, ht, rfl, rfl, by simp, by simp⟩
  · exact .inl rfl

theorem sameKinds_putSlot (h : Heap) (r : Ref) (i : ℕ) (v : Value) : SameKinds h (h.putSlot r i v) := by
  obtain heq | ⟨o, o', ho, heq, hlayout, -, -⟩ := putSlot_eq h r i v
  · rw [heq]
    exact .refl h
  · rw [heq]
    exact sameKinds_set ho hlayout

/-- A wrapper is not a container. -/
theorem get?_putSlot_tainted : (h.putSlot r i v).get? q = some (.tainted w) ↔ h.get? q = some (.tainted w) := by
  obtain heq | ⟨o, o', ho, heq, -, htainted, htainted'⟩ := putSlot_eq h r i v
  · rw [heq]
  · rw [heq, get?_set ho]
    split_ifs with hq
    · subst hq
      rw [ho]
      exact iff_of_false (fun heq => htainted' _ (Option.some.inj heq))
        fun heq => htainted _ (Option.some.inj heq)
    · rfl

theorem freshRef_putSlot (h : Heap) (r : Ref) (i : ℕ) (v : Value) :
    (h.putSlot r i v).freshRef = h.freshRef := by
  unfold putSlot
  split
  · exact freshRef_set ..
  · exact freshRef_set ..
  · rfl

end Heap

namespace Heap

variable {h h' h'' h₁ : Heap} {r q : Ref} {i j : ℕ} {u v w x y : Value} {o o' : Obj}

/-! ### What a walk leaves as it is -/

/-- No step of a walk takes a container out of a slot, or a wrapper out of the heap, or puts a cell in a
slot that holds none. -/
structure Preserved (h h' : Heap) : Prop where
  kinds : SameKinds h h'
  tainted : ∀ q w, h.get? q = some (.tainted w) → h'.get? q = some (.tainted w)
  empty : ∀ r i, h.slotAt r i = none → h'.slotAt r i = none
  slot : ∀ r i w, h.slotAt r i = some w → ∃ w', h'.slotAt r i = some w' ∧
    ((h.storage? w).isSome → w' = w) ∧ (h.isCell w = false → h.isCell w' = false)

theorem Preserved.refl (h : Heap) : Preserved h h :=
  ⟨.refl h, fun _ _ h => h, fun _ _ h => h, fun _ _ w hw => ⟨w, hw, fun _ => rfl, id⟩⟩

theorem Preserved.trans (hh : Preserved h h') (hh' : Preserved h' h'') : Preserved h h'' := by
  refine ⟨hh.kinds.trans hh'.kinds, fun q w hw => hh'.tainted q w (hh.tainted q w hw),
    fun r i hr => hh'.empty r i (hh.empty r i hr), fun r i w hw => ?_⟩
  obtain ⟨w', hw', hstorage, hcell⟩ := hh.slot r i w hw
  obtain ⟨w'', hw'', hstorage', hcell'⟩ := hh'.slot r i w' hw'
  refine ⟨w'', hw'', fun hs => ?_, fun hc => ?_⟩
  · obtain rfl := hstorage hs
    exact hstorage' (by rwa [hh.kinds.storage])
  · rw [hh.kinds.cell, hh.kinds.cell] at hcell'
    exact hcell' (hcell hc)

/-- A slot whose value was walked gets the result. -/
theorem Preserved.putSlot (hk : Preserved h h₁) (hv : h.slotAt r i = some v) (hnull : w ≠ .null)
    (hstorage : (h.storage? v).isSome → w = v) (hcell : h.isCell w = false) :
    Preserved h (h₁.putSlot r i w) := by
  obtain ⟨v', hv', -⟩ := hk.slot r i v hv
  refine ⟨hk.kinds.trans (sameKinds_putSlot ..),
    fun q x hx => get?_putSlot_tainted.2 (hk.tainted q x hx), fun q j hq => ?_, fun q j x hx => ?_⟩
  · rw [slotAt_putSlot hv' (mayHold_of_ne_null hnull), if_neg]
    · exact hk.empty q j hq
    · rintro ⟨rfl, rfl⟩
      rw [hv] at hq
      cases hq
  · rw [slotAt_putSlot hv' (mayHold_of_ne_null hnull)]
    by_cases hsame : q = r ∧ j = i
    · obtain ⟨rfl, rfl⟩ := hsame
      obtain rfl : v = x := Option.some.inj (hv.symm.trans hx)
      exact ⟨w, if_pos ⟨rfl, rfl⟩, hstorage, fun _ => hcell⟩
    · rw [if_neg hsame]
      exact hk.slot q j x hx

/-- A heap with a new wrapper. -/
theorem get?_wrapper (h : Heap) (v : Value) (q : Ref) :
    Heap.get? (⟨h.freshRef, false, .tainted v⟩ :: h) q =
      if h.freshRef = q then some (.tainted v) else h.get? q := get?_cons ..

theorem sameKinds_wrapper (h : Heap) (v : Value) : SameKinds h (⟨h.freshRef, false, .tainted v⟩ :: h) := by
  refine ⟨fun q => ?_⟩
  unfold layout
  rw [get?_wrapper]
  split_ifs with hq
  · subst hq
    rw [get?_freshRef]
    rfl
  · rfl

theorem slotAt_wrapper (h : Heap) (v : Value) (r : Ref) (i : ℕ) :
    Heap.slotAt (⟨h.freshRef, false, .tainted v⟩ :: h) r i = h.slotAt r i := by
  unfold slotAt
  rw [get?_wrapper]
  by_cases hr : h.freshRef = r
  · rw [if_pos hr, ← hr, get?_freshRef]
  · rw [if_neg hr]

theorem get?_wrapper_of_some (v : Value) (hq : h.get? q = some o) :
    Heap.get? (⟨h.freshRef, false, .tainted v⟩ :: h) q = some o := by
  rw [get?_wrapper, if_neg (ne_freshRef hq).symm, hq]

theorem preserved_wrapper (h : Heap) (v : Value) : Preserved h (⟨h.freshRef, false, .tainted v⟩ :: h) :=
  ⟨sameKinds_wrapper h v, fun _ _ hq => get?_wrapper_of_some v hq,
    fun r i hr => (slotAt_wrapper h v r i).trans hr,
    fun r i w hw => ⟨w, (slotAt_wrapper h v r i).trans hw, fun _ => rfl, id⟩⟩

/-! ### Cells -/

theorem content?_eq_some (hv : h.content? v = some (r, w)) :
    v = .obj r ∧ ∃ watch, h.get? r = some (.scalarCell w watch) := by
  cases v with
  | obj q =>
    unfold content? at hv
    dsimp only at hv
    split at hv
    · rename_i x watch hq
      cases hv
      exact ⟨rfl, watch, hq⟩
    · cases hv
  | _ => cases hv

theorem isCell_of_content? (hv : h.content? v = some (r, w)) : h.isCell v = true := by
  obtain ⟨rfl, watch, hr⟩ := content?_eq_some hv
  rw [isCell_obj, hr]

theorem isCell_of_content?_none (hv : h.content? v = none) : h.isCell v = false := by
  cases hcell : h.isCell v with
  | false => rfl
  | true =>
    obtain ⟨r, rfl⟩ := eq_obj_of_isCell hcell
    obtain ⟨x, watch, hr⟩ := exists_of_isCell hcell
    unfold content? at hv
    dsimp only at hv
    rw [hr] at hv
    cases hv

theorem storage?_of_isCell (hv : h.isCell v = true) : h.storage? v = none := by
  obtain ⟨r, rfl⟩ := eq_obj_of_isCell hv
  obtain ⟨x, watch, hr⟩ := exists_of_isCell hv
  show (h.get? r).bind _ = none
  rw [hr]
  rfl

/-- A tainted value that is no cell is a wrapper. -/
theorem exists_of_isTainted (hcell : h.isCell v = false) (hv : h.isTainted v = true) :
    ∃ q w, v = .obj q ∧ h.get? q = some (.tainted w) := by
  unfold isTainted at hv
  rw [dereferenceValue_of_not_cell hcell] at hv
  split at hv
  · split at hv
    · exact ⟨_, _, rfl, ‹_›⟩
    · cases hv
  · cases hv

theorem isTainted_of_get? (hq : h.get? q = some (.tainted w)) : h.isTainted (.obj q) = true := by
  have hcell : h.isCell (.obj q) = false := by rw [isCell_obj, hq]
  unfold isTainted
  rw [dereferenceValue_of_not_cell hcell]
  dsimp only
  rw [hq]

theorem storage?_of_get? (hq : h.get? q = some o) : h.storage? (.obj q) = storageOf q o := by
  show (h.get? q).bind _ = _
  rw [hq]
  rfl

theorem setContent_eq (h : Heap) (r : Ref) (w : Value) : h.setContent r w = h ∨
    ∃ x watch, h.get? r = some (.scalarCell x watch) ∧
      h.setContent r w = h.set r (.scalarCell w watch) := by
  unfold setContent
  split
  · exact .inr ⟨_, _, ‹_›, rfl⟩
  · exact .inl rfl

theorem get?_setContent_of_ne (hq : q ≠ r) : (h.setContent r w).get? q = h.get? q := by
  obtain heq | ⟨x, watch, hr, heq⟩ := setContent_eq h r w
  · rw [heq]
  · rw [heq, get?_set_ne hq.symm]

theorem slotAt_setContent (h : Heap) (r : Ref) (w : Value) (q : Ref) (j : ℕ) :
    (h.setContent r w).slotAt q j = h.slotAt q j := by
  obtain heq | ⟨x, watch, hr, heq⟩ := setContent_eq h r w
  · rw [heq]
  · rw [heq]
    by_cases hq : q = r
    · subst hq
      unfold slotAt
      rw [get?_set_self (by rw [hr]; rfl), hr]
    · exact slotAt_congr (get?_set_ne (Ne.symm hq)) j

theorem get?_setContent_tainted :
    (h.setContent r w).get? q = some (.tainted x) ↔ h.get? q = some (.tainted x) := by
  obtain heq | ⟨y, watch, hr, heq⟩ := setContent_eq h r w
  · rw [heq]
  · rw [heq, get?_set hr]
    split_ifs with hq
    · subst hq
      rw [hr]
      simp
    · rfl

theorem sameKinds_setContent (h : Heap) (r : Ref) (w : Value) : SameKinds h (h.setContent r w) := by
  obtain heq | ⟨x, watch, hr, heq⟩ := setContent_eq h r w
  · rw [heq]
    exact .refl h
  · rw [heq]
    exact sameKinds_set hr rfl

theorem preserved_setContent (h : Heap) (r : Ref) (w : Value) : Preserved h (h.setContent r w) :=
  ⟨sameKinds_setContent h r w, fun _ _ hq => get?_setContent_tainted.2 hq,
    fun q j hq => (slotAt_setContent h r w q j).trans hq,
    fun q j x hx => ⟨x, (slotAt_setContent h r w q j).trans hx, fun _ => rfl, id⟩⟩

/-! ### Ways in the graph -/

theorem acc_of_leaf (hv : h.storage? v = none) : Acc (flip (Child h.slots)) v := by
  refine .intro v fun w hw => ?_
  obtain ⟨r, i, hr, -⟩ := child_iff.1 hw
  rw [hv] at hr
  cases hr

theorem below_of_leaf (hv : h.storage? v = none) (hu : Below h.slots [v] u) : u = v := by
  obtain ⟨s, hs, hu⟩ := hu
  obtain rfl := List.mem_singleton.1 hs
  rcases hu.cases_head with rfl | ⟨c, hc, -⟩
  · rfl
  · obtain ⟨r, i, hr, -⟩ := child_iff.1 hc
    rw [hv] at hr
    cases hr

theorem isSome_of_child (hw : Child h.slots v w) : (h.storage? v).isSome := by
  obtain ⟨r, i, hr, -⟩ := child_iff.1 hw
  rw [hr]
  rfl

theorem Preserved.child (hk : Preserved h h') (hw : Child h.slots v w) (hs : (h.storage? w).isSome) :
    Child h'.slots v w := by
  obtain ⟨r, i, hr, hw⟩ := child_iff.1 hw
  obtain ⟨w', hw', hsame, -⟩ := hk.slot r i w hw
  obtain rfl := hsame hs
  exact child_iff.2 ⟨r, i, (hk.kinds.storage v).trans hr, hw'⟩

theorem Preserved.acc (hk : Preserved h h') (ha : Acc (flip (Child h'.slots)) v) : Acc (flip (Child h.slots)) v := by
  induction ha with
  | intro v _ ih =>
    refine .intro v fun w hw => ?_
    cases hs : h.storage? w with
    | none => exact acc_of_leaf hs
    | some r => exact ih w (hk.child hw (by rw [hs]; rfl))

theorem Preserved.below (hk : Preserved h h') (hu : Below h.slots [v] u) (hs : (h.storage? u).isSome) :
    Below h'.slots [v] u := by
  obtain ⟨s, hv, hu⟩ := hu
  refine ⟨s, hv, ?_⟩
  induction hu with
  | refl => exact .refl
  | tail _ hw ih => exact (ih (isSome_of_child hw)).tail (hk.child hw hs)

theorem below_self_or_child (hu : Below h.slots [v] u) :
    u = v ∨ ∃ w, Child h.slots v w ∧ Below h.slots [w] u := by
  obtain ⟨s, hs, hu⟩ := hu
  obtain rfl := List.mem_singleton.1 hs
  rcases hu.cases_head with rfl | ⟨c, hc, hu⟩
  · exact .inl rfl
  · exact .inr ⟨c, hc, c, List.mem_singleton_self c, hu⟩

end Heap

namespace Heap

variable {h h' h₁ h₂ : Heap} {r q : Ref} {i j : ℕ} {u v w x y : Value}

/-! ### A walk that ends -/

theorem Preserved.slot_notCell (hk : Preserved h h') (hr : ∀ w, h.slotAt r i = some w → h.isCell w = false)
    (hw : h'.slotAt r i = some w) : h'.isCell w = false := by
  cases hslot : h.slotAt r i with
  | none =>
    rw [hk.empty r i hslot] at hw
    cases hw
  | some x =>
    obtain ⟨w', hw', -, hcell⟩ := hk.slot r i x hslot
    obtain rfl := Option.some.inj (hw'.symm.trans hw)
    rw [hk.kinds.cell]
    exact hcell (hr x hslot)

/-- There is no cell in the slots of the second heap that are slots below the value in the first. -/
def Clean (h h' : Heap) (v : Value) : Prop :=
  ∀ u r i x, Below h.slots [v] u → h.storage? u = some r → h'.slotAt r i = some x → h'.isCell x = false

theorem clean_of_leaf (hv : h.storage? v = none) : Clean h h' v := by
  intro u r i x hu hr
  rw [below_of_leaf hv hu, hv] at hr
  cases hr

theorem Clean.congr (hk : Preserved h h₁) (hc : Clean h₁ h₂ v) (hk' : Preserved h₂ h') : Clean h h' v := by
  intro u r i x hu hr hx
  have hu' := hk.below hu (by rw [hr]; rfl)
  exact hk'.slot_notCell (fun w hw => hc u r i w hu' (by rwa [hk.kinds.storage]) hw) hx

theorem Clean.putSlot (hc : Clean h h₁ v) (hx : h₁.slotAt r i = some x) (hnull : y ≠ .null)
    (hcell : h₁.isCell y = false) : Clean h (h₁.putSlot r i y) v := by
  intro u q j z hu hq hz
  rw [(sameKinds_putSlot ..).cell]
  rw [slotAt_putSlot hx (mayHold_of_ne_null hnull)] at hz
  split_ifs at hz
  · obtain rfl := Option.some.inj hz
    exact hcell
  · exact hc u q j z hu hq hz

/-- What a call for a value does that comes to an end. -/
structure Walked (h h' : Heap) (v y : Value) : Prop where
  preserved : Preserved h h'
  notNull : y ≠ .null
  notCell : h'.isCell y = false
  container : (h.storage? v).isSome → y = v
  acc : Acc (flip (Child h.slots)) v
  clean : Clean h h' v

theorem walked_of_leaf (hk : Preserved h h') (hv : h.storage? v = none) (hnull : y ≠ .null)
    (hcell : h'.isCell y = false) : Walked h h' v y := by
  refine ⟨hk, hnull, hcell, fun hs => ?_, acc_of_leaf hv, clean_of_leaf hv⟩
  rw [hv] at hs
  cases hs

/-- A slot that has been visited. -/
structure SlotDone (h h' : Heap) (r : Ref) (i : ℕ) : Prop where
  acc : ∀ w, h.slotAt r i = some w → Acc (flip (Child h.slots)) w
  notCell : ∀ w, h'.slotAt r i = some w → h'.isCell w = false
  clean : ∀ w, h.slotAt r i = some w → Clean h h' w

theorem SlotDone.congr (hk : Preserved h h₁) (hv : SlotDone h₁ h' r i) : SlotDone h h' r i := by
  refine ⟨fun w hw => ?_, hv.notCell, fun w hw => ?_⟩
  · cases hs : h.storage? w with
    | none => exact acc_of_leaf hs
    | some q =>
      obtain ⟨w', hw', hsame, -⟩ := hk.slot r i w hw
      obtain rfl := hsame (by rw [hs]; rfl)
      exact hk.acc (hv.acc w' hw')
  · cases hs : h.storage? w with
    | none => exact clean_of_leaf hs
    | some q =>
      obtain ⟨w', hw', hsame, -⟩ := hk.slot r i w hw
      obtain rfl := hsame (by rw [hs]; rfl)
      exact (hv.clean w' hw').congr hk (.refl h')

/-- A container whose slots have all been visited. -/
theorem walked_of_done (hk : Preserved h h') (hv : h.storage? v = some r) (hcell : h.isCell v = false)
    (hdone : ∀ i < h.slotCount r, SlotDone h h' r i) : Walked h h' v v := by
  have hslot : ∀ {i w}, h.slotAt r i = some w → SlotDone h h' r i := fun hw => hdone _ (lt_slotCount hw)
  refine ⟨hk, ?_, by rw [hk.kinds.cell, hcell], fun _ => rfl, .intro v fun w hw => ?_, ?_⟩
  · rintro rfl
    cases hv
  · obtain ⟨r', i, hr', hw⟩ := child_iff.1 hw
    obtain rfl := Option.some.inj (hv.symm.trans hr')
    exact (hslot hw).acc w hw
  · intro u q j x hu hq hx
    obtain rfl | ⟨w, hw, hu⟩ := below_self_or_child hu
    · obtain rfl := Option.some.inj (hv.symm.trans hq)
      cases hw : h.slotAt r j with
      | none =>
        rw [hk.empty r j hw] at hx
        cases hx
      | some w => exact (hslot hw).notCell x hx
    · obtain ⟨r', i, hr', hw⟩ := child_iff.1 hw
      obtain rfl := Option.some.inj (hv.symm.trans hr')
      exact (hslot hw).clean w hw u q j x hu hq hx

end Heap

namespace VM

open Heap

variable {sizeof : ObjType → ℕ} {walk : VM → Value → Option (VM × Value)} {fuel : ℕ} {vm vm' : VM} {r : Ref}
  {v w y : Value}

theorem walkSlots_done
    (hwalk : ∀ vm v vm' y, walk vm v = some (vm', y) → Walked vm.objects vm'.objects v y) {is : List ℕ}
    (hrun : walkSlots walk r vm is = some vm') :
    Preserved vm.objects vm'.objects ∧ ∀ i ∈ is, SlotDone vm.objects vm'.objects r i := by
  induction is generalizing vm with
  | nil =>
    cases hrun
    exact ⟨.refl _, fun i hi => absurd hi List.not_mem_nil⟩
  | cons i is ih =>
    unfold walkSlots at hrun
    split at hrun
    · rename_i hnone
      obtain ⟨hk, hdone⟩ := ih hrun
      refine ⟨hk, List.forall_mem_cons.2 ⟨⟨?_, ?_, ?_⟩, hdone⟩⟩
      · rw [hnone]
        exact fun w hw => by cases hw
      · rw [hk.empty r i hnone]
        exact fun w hw => by cases hw
      · rw [hnone]
        exact fun w hw => by cases hw
    · rename_i x hx
      obtain ⟨⟨vm₁, y⟩, hy, hrun⟩ := Option.bind_eq_some_iff.1 hrun
      have hw := hwalk vm x vm₁ y hy
      have hcell : vm.objects.isCell y = false := by rw [← hw.preserved.kinds.cell, hw.notCell]
      have hput := hw.preserved.putSlot hx hw.notNull hw.container hcell
      obtain ⟨hk, hdone⟩ := ih hrun
      refine ⟨hput.trans hk, List.forall_mem_cons.2 ⟨⟨?_, ?_, ?_⟩, fun j hj => (hdone j hj).congr hput⟩⟩
      · rw [hx]
        rintro w ⟨⟩
        exact hw.acc
      · obtain ⟨x', hx', -⟩ := hw.preserved.slot r i x hx
        refine fun w => hk.slot_notCell fun z hz => ?_
        rw [slotAt_putSlot hx' (mayHold_of_ne_null hw.notNull), if_pos ⟨rfl, rfl⟩] at hz
        obtain rfl := Option.some.inj hz
        rw [hput.kinds.cell, hcell]
      · rw [hx]
        rintro w ⟨⟩
        obtain ⟨x', hx', -⟩ := hw.preserved.slot r i x hx
        exact (hw.clean.putSlot hx' hw.notNull hw.notCell).congr (.refl _) hk

theorem walkContent_eq {z : VM × Value} (hrun : walkContent walk vm r w = some z) :
    ∃ vm₁ y, walk vm w = some (vm₁, y) ∧ z = ({ vm₁ with objects := vm₁.objects.setContent r y }, y) := by
  obtain ⟨⟨vm₁, y⟩, hy, hz⟩ := Option.bind_eq_some_iff.1 hrun
  cases hz
  exact ⟨vm₁, y, hy, rfl⟩

/-- A walk of a cell is one of its content. -/
theorem walked_setContent {h h₁ : Heap} (hw : Walked h h₁ w y) (hv : h.content? v = some (r, w)) :
    Walked h (h₁.setContent r y) v y := by
  have hk := preserved_setContent h₁ r y
  refine walked_of_leaf (hw.preserved.trans hk) (storage?_of_isCell (isCell_of_content? hv)) hw.notNull ?_
  rw [hk.kinds.cell, hw.notCell]

theorem taintTarget?_eq (vm : VM) (v : Value) : vm.taintTarget? v = vm.objects.storage? v := by
  cases v with
  | obj r =>
    show _ = (vm.objects.get? r).bind _
    unfold taintTarget?
    dsimp only
    cases vm.objects.get? r with
    | none => rfl
    | some o => cases o <;> rfl
  | _ => rfl

/-- A value that is neither tainted nor a container is wrapped. -/
theorem taintValue_leaf (sizeof : ObjType → ℕ) (htainted : vm.objects.isTainted v = false)
    (hv : vm.objects.storage? v = none) :
    (taintValue sizeof 1 vm v).1.objects = ⟨vm.objects.freshRef, false, .tainted v⟩ :: vm.objects ∧
      (taintValue sizeof 1 vm v).2 = .obj vm.objects.freshRef := by
  unfold taintValue
  rw [if_neg (by simp [htainted]), taintTarget?_eq, hv]
  exact ⟨rfl, rfl⟩

theorem taint_walked (hrun : taintValueRecursive sizeof fuel vm v = some (vm', y)) :
    Walked vm.objects vm'.objects v y := by
  induction fuel generalizing vm v vm' y with
  | zero => cases hrun
  | succ fuel ih =>
    unfold taintValueRecursive at hrun
    split at hrun
    · rename_i r w hcontent
      obtain ⟨vm₁, x, hx, hz⟩ := walkContent_eq hrun
      cases hz
      exact walked_setContent (ih hx) hcontent
    · rename_i hcontent
      have hcell := isCell_of_content?_none hcontent
      split_ifs at hrun with htainted
      · cases hrun
        obtain ⟨q, w, rfl, hq⟩ := exists_of_isTainted hcell htainted
        refine walked_of_leaf (.refl _) ?_ (by simp) hcell
        rw [storage?_of_get? hq]
        rfl
      · split at hrun
        · rename_i r hr
          obtain ⟨vm₁, hwalk, hz⟩ := Option.map_eq_some_iff.1 hrun
          cases hz
          obtain ⟨vm₁, hslots, hz⟩ := Option.bind_eq_some_iff.1 hwalk
          cases hz
          obtain ⟨hk, hdone⟩ := walkSlots_done (fun vm v vm' y hy => ih hy) hslots
          exact walked_of_done hk hr hcell fun i hi => hdone i (List.mem_range.2 hi)
        · rename_i hr
          have hvm : vm' = (taintValue sizeof 1 vm v).1 := (congrArg Prod.fst (Option.some.inj hrun)).symm
          have hy : y = (taintValue sizeof 1 vm v).2 := (congrArg Prod.snd (Option.some.inj hrun)).symm
          subst hvm hy
          obtain ⟨hobjects, hresult⟩ := taintValue_leaf sizeof (by simpa using htainted) hr
          have hget : (taintValue sizeof 1 vm v).1.objects.get? vm.objects.freshRef = some (.tainted v) := by
            rw [hobjects, get?_wrapper, if_pos rfl]
          rw [hresult]
          refine walked_of_leaf (hobjects ▸ preserved_wrapper ..) hr (by simp) ?_
          rw [isCell_obj, hget]


/-! ### Wrappers stay -/

/-- No wrapper is taken out of the heap, or gets another value. -/
def KeepsTainted (h h' : Heap) : Prop := ∀ q w, h.get? q = some (.tainted w) → h'.get? q = some (.tainted w)

theorem walkSlots_keepsTainted
    (hwalk : ∀ vm v vm' y, walk vm v = some (vm', y) → KeepsTainted vm.objects vm'.objects) {is : List ℕ}
    (hrun : walkSlots walk r vm is = some vm') : KeepsTainted vm.objects vm'.objects := by
  induction is generalizing vm with
  | nil =>
    cases hrun
    exact fun q w hq => hq
  | cons i is ih =>
    unfold walkSlots at hrun
    split at hrun
    · exact ih hrun
    · obtain ⟨⟨vm₁, y⟩, hy, hrun⟩ := Option.bind_eq_some_iff.1 hrun
      exact fun q w hq => ih hrun q w (get?_putSlot_tainted.2 (hwalk _ _ _ _ hy q w hq))

theorem walkStorages_keepsTainted
    (hwalk : ∀ vm v vm' y, walk vm v = some (vm', y) → KeepsTainted vm.objects vm'.objects) {rs : List Ref}
    (hrun : walkStorages walk rs vm = some vm') : KeepsTainted vm.objects vm'.objects := by
  induction rs generalizing vm with
  | nil =>
    cases hrun
    exact fun q w hq => hq
  | cons r rs ih =>
    obtain ⟨vm₁, hslots, hrun⟩ := Option.bind_eq_some_iff.1 hrun
    exact fun q w hq => ih hrun q w (walkSlots_keepsTainted hwalk hslots q w hq)

theorem untaint_keepsTainted (hrun : untaintValueRecursive fuel vm v = some (vm', y)) :
    KeepsTainted vm.objects vm'.objects := by
  induction fuel generalizing vm v vm' y with
  | zero => cases hrun
  | succ fuel ih =>
    have hwalk : ∀ vm v vm' y, untaintValueRecursive fuel vm v = some (vm', y) →
        KeepsTainted vm.objects vm'.objects := fun vm v vm' y hy => ih hy
    unfold untaintValueRecursive at hrun
    split at hrun
    · obtain ⟨vm₁, x, hx, hz⟩ := walkContent_eq hrun
      cases hz
      exact fun q w hq => get?_setContent_tainted.2 (ih hx q w hq)
    · obtain ⟨vm₁, hwalks, hz⟩ := Option.map_eq_some_iff.1 hrun
      cases hz
      exact walkStorages_keepsTainted hwalk hwalks

end VM

namespace Heap

variable {h : Heap} {v x : Value} {r : Ref}

theorem content?_of_isCell (hv : h.isCell v = false) : h.content? v = none := by
  cases hcontent : h.content? v with
  | none => rfl
  | some p =>
    obtain ⟨r, w⟩ := p
    rw [isCell_of_content? hcontent] at hv
    cases hv

theorem content?_setContent (hr : h.isCell (.obj r) = true) (y : Value) :
    (h.setContent r y).content? (.obj r) = some (r, y) := by
  obtain ⟨x, watch, hr⟩ := exists_of_isCell hr
  unfold setContent content?
  rw [hr]
  dsimp only
  rw [get?_set_self (by rw [hr]; rfl)]

theorem below_self_or_slot {u : Value} (hu : Below h.slots [v] u) :
    u = v ∨ ∃ p r i, Below h.slots [v] p ∧ h.storage? p = some r ∧ h.slotAt r i = some u := by
  obtain ⟨s, hs, hu⟩ := hu
  obtain rfl := List.mem_singleton.1 hs
  rcases hu.cases_tail with rfl | ⟨p, hp, hu⟩
  · exact .inl rfl
  · obtain ⟨r, i, hr, hu⟩ := child_iff.1 hu
    exact .inr ⟨p, r, i, ⟨s, List.mem_singleton_self s, hp⟩, hr, hu⟩

end Heap

namespace VM

open Heap

variable {sizeof : ObjType → ℕ} {fuel : ℕ} {vm vm₁ : VM} {v r₁ : Value}

/-- What is walked first is the value, or the content of the variable. -/
theorem taint_held (hrun : taintValueRecursive sizeof fuel vm v = some (vm₁, r₁)) :
    Walked vm.objects vm₁.objects (vm.objects.held v v) r₁ ∧ vm₁.objects.held v r₁ = r₁ := by
  have hwalked := taint_walked hrun
  unfold held
  cases fuel with
  | zero => cases hrun
  | succ fuel =>
    cases hcontent : vm.objects.content? v with
    | none =>
      have hcell : vm₁.objects.isCell v = false := by
        rw [hwalked.preserved.kinds.cell, isCell_of_content?_none hcontent]
      rw [content?_of_isCell hcell]
      exact ⟨hwalked, rfl⟩
    | some p =>
      obtain ⟨r, w⟩ := p
      unfold taintValueRecursive at hrun
      rw [hcontent] at hrun
      obtain ⟨vm₂, x, hx, hz⟩ := walkContent_eq hrun
      cases hz
      have hw := taint_walked hx
      have hk := preserved_setContent vm₂.objects r r₁
      obtain ⟨rfl, -⟩ := content?_eq_some hcontent
      have hcell : vm₂.objects.isCell (.obj r) = true := by
        rw [hw.preserved.kinds.cell, isCell_of_content? hcontent]
      refine ⟨⟨hw.preserved.trans hk, hw.notNull, by rw [hk.kinds.cell, hw.notCell], hw.container, hw.acc,
        hw.clean.congr (.refl _) hk⟩, ?_⟩
      dsimp only
      rw [content?_setContent hcell]

end VM

/-- The law fails for a container that is below itself, and where a cell or a tainted value is reached. -/
theorem TaintLaw.taintable {sizeof : ObjType → ℕ} {vm : VM} {v : Value} (h : TaintLaw sizeof vm v) :
    vm.objects.Taintable v := by
  obtain ⟨fuel, vm₁, r₁, vm₂, r₂, htaint, huntaint, hheld, hslots⟩ := h
  obtain ⟨hw, heq⟩ := VM.taint_held htaint
  rw [heq] at hheld
  refine ⟨fun u hu => ?_, fun u hu => ?_⟩
  · -- the position that holds it
    obtain ⟨w₁, w₂, hcell, hlaw⟩ : ∃ w₁ w₂, vm₁.objects.isCell w₁ = false ∧
        PositionLaw vm.objects vm₁.objects vm₂.objects u w₁ w₂ := by
      obtain rfl | ⟨p, r, i, hp, hr, hu⟩ := Heap.below_self_or_slot hu
      · exact ⟨r₁, _, hw.notCell, hheld⟩
      · obtain ⟨w₁, w₂, hw₁, -, hlaw⟩ := hslots p r i u hp hr hu
        exact ⟨w₁, w₂, hw.clean p r i w₁ hp hr hw₁, hlaw⟩
    have hbare : vm.objects.isCell u = false := by
      cases hu : vm.objects.isCell u with
      | false => rfl
      | true =>
        obtain rfl := hlaw.shared hu
        rw [hw.preserved.kinds.cell, hu] at hcell
        cases hcell
    refine ⟨hbare, ?_⟩
    cases htainted : vm.objects.isTainted u with
    | false => rfl
    | true =>
      obtain ⟨q, y, rfl, hq⟩ := Heap.exists_of_isTainted hbare htainted
      obtain rfl := hlaw.original
      have hstays := VM.untaint_keepsTainted huntaint q y (hw.preserved.tainted q y hq)
      have huntainted := hlaw.untainted (by rw [Heap.storage?_of_get? hq]; rfl)
      rw [Heap.isTainted_of_get? hstays] at huntainted
      cases huntainted
  · obtain ⟨s, hs, hu⟩ := hu
    obtain rfl := List.mem_singleton.1 hs
    exact Graph.not_cycle_of_acc (Graph.acc_of_below hw.acc hu)

end Slp
