import Slp.Object.HashOrder
import Slp.Object.Chain
import Slp.Vm.Basic

/-!
# Foreach loops

A loop keeps its collection and its iterator, the number of the next step, on the operand stack;
everything else it needs is in its frame, in one record for all loops of the frame: the element
that `remove()` acts on, and the array with the version that its changes are measured against.

* `foreachNext` : `OP_FOREACH_NEXT` and `OP_FOREACH_NEXT_VALUE`.
* `nativeRemove` : `remove()` without arguments.
-/

namespace Slp

/-- What a step of a loop does: it jumps out of the loop, or it binds a key and a value for the
next round of the body, or it calls a generator first.  A round may come with the warning that the
array changed. -/
inductive ForeachStep where
  | exit (vm : VM)
  | enter (warned : Bool) (key value : Value) (vm : VM)
  | generate (vm : VM)

namespace ForeachStep

/-- The machine after the instruction, with the key and the value on the stack. -/
def vm : ForeachStep → VM
  | .exit vm | .generate vm => vm
  | .enter _ key value vm => (vm.push key).push value

/-- The machine before the key and the value are pushed. -/
def bound : ForeachStep → VM
  | .exit vm | .generate vm | .enter _ _ _ vm => vm

/-- Whether the step leaves the loop. -/
def exits : ForeachStep → Bool
  | .exit _ => true
  | _ => false

/-- Whether the step reports that the array changed. -/
def warns : ForeachStep → Bool
  | .enter warned _ _ _ => warned
  | _ => false

end ForeachStep

/-- `SLP_AS_NUM` of an iterator, which is a number. -/
def Value.asNum : Value → ℤ
  | .num n => n
  | _ => 0

/-- The number of visible entries: `slp_obj_hash_visible_count`. -/
def HashObj.visibleCount (t : HashObj) : ℕ :=
  t.entries.countP fun e => !(e.key = .null) && !(e.value = .null)

/-- The loop of `OP_FOREACH_NEXT` over the ordinals of a table: the ordinal it stops at and the
slot it looked at last. -/
def HashObj.skipNull (fmt : Printf) (h : Heap) (t : HashObj) :
    (fuel : ℕ) → (ordinal : ℤ) → (slot : Option ℕ) → ℤ × Option ℕ
  | 0, ordinal, slot => (ordinal, slot)
  | fuel + 1, ordinal, slot =>
    if ordinal < t.count then
      match t.orderedIndex fmt h ordinal with
      | none => (ordinal, none)
      | some p =>
        if (t.entries.getD p {}).value = .null then skipNull fmt h t fuel (ordinal + 1) (some p)
        else (ordinal, some p)
    else (ordinal, slot)

namespace VM

/-- The record of the current frame at the start of a step, with the operand read. -/
def foreachReset (f : CallFrame) : CallFrame :=
  { f with ip := f.ip + 2, foreachActive := false, foreachArray := none, foreachHash := none }

/-- The end of a step that is done. -/
def leaveForeach (offset : ℕ) (vm : VM) : ForeachStep :=
  .exit (vm.modifyFrame fun f =>
    { f with ip := f.ip + offset, foreachIterationArray := none, foreachInvalidated := false })

/-- The end of a step that goes on. -/
def enterForeach (warned : Bool) (iterator : ℤ) (key value : Value) (vm : VM) : ForeachStep :=
  .enter warned key value (vm.setSlot (vm.top - 1) (.num (iterator + 1)))

/-- The element of an array as a cell: the element itself, or a new cell in its place. -/
def elementCell (sizeof : ObjType → ℕ) (vm : VM) (r : Ref) (a : ArrayObj) (i : ℕ) : VM × Value :=
  let value := a.elements.getD i .null
  if vm.objects.isCell value then (vm, value)
  else
    let (vm, cell) := vm.alloc sizeof (.scalarCell value none)
    (vm.setObj r (.array { a with elements := a.elements.set i (.obj cell) }), .obj cell)

/-- The start of an iteration, or one over another array than the last step of the frame. -/
def noteArray (r : Ref) (a : ArrayObj) (idx : ℤ) (f : CallFrame) : CallFrame :=
  if idx = 0 ∨ f.foreachIterationArray ≠ some r then
    { f with
      foreachIterationArray := some r
      foreachIterationVersion := a.mutationVersion
      foreachInvalidated := false }
  else f

/-- The record of an element of an array. -/
def recordElement (r : Ref) (idx offset : ℤ) (value : Value) (f : CallFrame) : CallFrame :=
  { f with
    foreachArray := some r
    foreachIndex := idx
    foreachIteratorOffset := offset
    foreachActive := true
    foreachLastKey := .num idx
    foreachLastValue := value }

/-- A step over the array at `r`, or over a list iterator of it. -/
def arrayStep (sizeof : ObjType → ℕ) (offset : ℕ) (java : Option (Ref × JavaObject)) (r : Ref)
    (a : ArrayObj) (idx : ℤ) (f : CallFrame) (vm : VM) : ForeachStep :=
  let f := noteArray r a idx f
  let vm := vm.modifyFrame fun _ => f
  if f.foreachInvalidated then vm.leaveForeach offset
  else if 0 < idx ∧ f.foreachIterationVersion ≠ a.mutationVersion then
    (vm.modifyFrame fun f => { f with foreachInvalidated := true }).enterForeach true idx
      f.foreachLastKey f.foreachLastValue
  else if 0 ≤ idx ∧ idx < a.count then
    let (vm, value) := vm.elementCell sizeof r a idx.toNat
    let vm := vm.modifyFrame (recordElement r idx (vm.top - 1) value)
    let vm := match java with
      | some (q, j) => vm.setObj q (.javaObject { j with value := .num (idx + 1) })
      | none => vm
    vm.enterForeach false idx (.num idx) value
  else vm.leaveForeach offset

/-- The record of an entry of a hash. -/
def recordEntry (r : Ref) (offset : ℤ) (key : Value) (f : CallFrame) : CallFrame :=
  { f with
    foreachHash := some r
    foreachKey := key
    foreachIteratorOffset := offset
    foreachActive := true }

/-- A step over the hash at `r`. -/
def hashStep (fmt : Printf) (valueOnly : Bool) (offset : ℕ) (r : Ref) (t : HashObj) (idx : ℤ)
    (vm : VM) : ForeachStep :=
  match t.skipNull fmt vm.objects (t.count - idx).toNat idx none with
  | (ordinal, some p) =>
    let e := t.entries.getD p {}
    (vm.modifyFrame (recordEntry r (vm.top - 1) e.key)).enterForeach false ordinal e.key
      (if valueOnly then e.key else e.value)
  | (_, none) => vm.leaveForeach offset

/-- A step over a string.  A character is interned. -/
def stringStep (sizeof : ObjType → ℕ) (offset : ℕ) (s : StringObj) (idx : ℤ) (vm : VM) :
    ForeachStep :=
  if 0 ≤ idx ∧ idx < s.chars.length then
    match Intern.internString (sizeof .string) vm [s.chars.getD idx.toNat 0] with
    | some (vm, char) => vm.enterForeach false idx (.num idx) (.obj char)
    | none => vm.leaveForeach offset
  else vm.leaveForeach offset

/-- A step over the collection below the iterator; `resumed` is that its generator has just
returned. -/
def collectionStep (sizeof : ObjType → ℕ) (fmt : Printf) (valueOnly : Bool) (offset : ℕ)
    (resumed : Bool) (f : CallFrame) (vm : VM) : ForeachStep :=
  let idx := (vm.peek 0).asNum
  match vm.peek 1 with
  | .obj r =>
    match vm.objects.get? r with
    | some (.closure _) =>
      if resumed then vm.leaveForeach offset
      else .generate ((vm.modifyFrame fun _ =>
        { f with ip := f.ip - 3, foreachPending := true }).push (.obj r))
    | some (.array a) => vm.arrayStep sizeof offset none r a idx f
    | some (.javaObject j) =>
      match j.kind, j.list with
      | .iterator, some l =>
        match vm.objects.get? l with
        | some (.array a) =>
          -- a list iterator goes on where it was left
          let idx := if f.foreachIterationArray ≠ some l then j.value.asNum else idx
          (vm.setSlot (vm.top - 1) (.num idx)).arrayStep sizeof offset (some (r, j)) l a idx f
        | _ => vm.leaveForeach offset
      | _, _ => vm.leaveForeach offset
    | some (.hash t) => vm.hashStep fmt valueOnly offset r t idx
    | some (.string s) => vm.stringStep sizeof offset s idx
    | _ => vm.leaveForeach offset
  | _ => vm.leaveForeach offset

/-- `OP_FOREACH_NEXT`, and `OP_FOREACH_NEXT_VALUE` if `valueOnly`, with the distance to the end of
the loop. -/
def foreachNext (sizeof : ObjType → ℕ) (fmt : Printf) (valueOnly : Bool) (offset : ℕ) (vm : VM) :
    ForeachStep :=
  match vm.currentFrame? with
  | none => .exit vm
  | some f =>
    let f := foreachReset f
    if f.foreachPending then
      -- the result of the generator is above the collection and the iterator
      let (value, vm) := vm.pop
      let f := { f with foreachPending := false }
      let vm := vm.modifyFrame fun _ => f
      if value ≠ .null then vm.enterForeach false (vm.peek 0).asNum (vm.peek 0) value
      else vm.collectionStep sizeof fmt valueOnly offset true f
    else (vm.modifyFrame fun _ => f).collectionStep sizeof fmt valueOnly offset false f

/-- The frame whose element `remove()` removes: the innermost with an active record. -/
def removeTarget? (vm : VM) : Option ℕ :=
  (List.range vm.frames.length).reverse.find? fun i =>
    match vm.frames[i]? with
    | some f => f.foreachActive && (f.foreachArray.isSome || f.foreachHash.isSome)
    | none => false

/-- The removal of the recorded element: the record, and the heap. -/
def removeRecorded (fmt : Printf) (h : Heap) (f : CallFrame) : CallFrame × Heap :=
  match f.foreachArray, f.foreachHash with
  | some r, _ =>
    let h := h.change r (.removeAt f.foreachIndex)
    ({ f with foreachIterationVersion := ((h.array? r).map (·.mutationVersion)).getD 0 }, h)
  | none, some r =>
    match h.get? r with
    | some (.hash t) => (f, h.set r (.hash (t.delete fmt h f.foreachKey).1))
    | _ => (f, h)
  | none, none => (f, h)

/-- The iterator goes one step back. -/
def rewind (vm : VM) (offset : ℤ) : VM :=
  if 0 ≤ offset ∧ offset < vm.top then vm.setSlot offset (.num ((vm.slot offset).asNum - 1)) else vm

/-- `native_remove` without arguments: the machine, and the collection.  It is refused, with a
warning, if there is no active loop. -/
def nativeRemove (fmt : Printf) (vm : VM) : Option (VM × Value) :=
  match vm.removeTarget? with
  | none => none
  | some i =>
    match vm.frames[i]? with
    | none => none
    | some f =>
      let (g, h) := removeRecorded fmt vm.objects f
      let g := { g with foreachArray := none, foreachHash := none, foreachActive := false }
      let vm := { vm with objects := h, frames := vm.frames.set i g }
      some (vm.rewind f.foreachIteratorOffset,
        ((f.foreachArray.or f.foreachHash).map Value.obj).getD .null)

end VM

end Slp
