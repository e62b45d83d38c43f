import Slp.Object.Containers
import Slp.Gc.Collect

/-!
# The operand stack, the frames and the handlers of the machine

The small operations the opcodes are made of.  A C function that reports a runtime error and
returns `false` (or `SLP_RUNTIME_ERROR`) is a function into `Outcome`.
-/

namespace Slp

/-- The result of a function that may report a runtime error: the machine, with the message of the
error if there was one. -/
inductive Outcome where
  | ok (vm : VM)
  | error (message : String) (vm : VM)

/-- The machine after the call, whether it failed or not. -/
def Outcome.vm : Outcome → VM
  | .ok vm => vm
  | .error _ vm => vm

/-- Whether the call succeeded. -/
def Outcome.isOk : Outcome → Bool
  | .ok _ => true
  | .error _ _ => false

namespace VM

/-! ### The operand stack -/

/-- `slp_vm_push`. -/
def push (vm : VM) (v : Value) : VM :=
  if vm.stack.length ≥ stackMax then { vm with abortRequested := true }
  else { vm with stack := vm.stack ++ [v] }

/-- `slp_vm_pop`. -/
def pop (vm : VM) : Value × VM :=
  match vm.stack.getLast? with
  | none => (.null, { vm with abortRequested := true })
  | some v => (v, { vm with stack := vm.stack.dropLast })

/-- `slp_vm_peek`. -/
def peek (vm : VM) (distance : ℕ) : Value := vm.stack.reverse.getD distance .null

/-- `vm->stack_top = vm->stack + top`.  Raising the top makes stale slots live again; their values
are not tracked and read as null. -/
def setTop (vm : VM) (top : ℤ) : VM :=
  { vm with
    stack := vm.stack.take top.toNat ++ List.replicate (top.toNat - vm.stack.length) .null }

/-- The offset of `stack_top` from the base of the stack. -/
def top (vm : VM) : ℤ := vm.stack.length

/-- The value of a slot. -/
def slot (vm : VM) (i : ℤ) : Value := vm.stack.getD i.toNat .null

/-- A slot assigned. -/
def setSlot (vm : VM) (i : ℤ) (v : Value) : VM := { vm with stack := vm.stack.set i.toNat v }

/-- The slots of a list from `i` on assigned. -/
def setFrom (l : List Value) (i : ℕ) : List Value → List Value
  | [] => l
  | v :: vs => setFrom (l.set i v) (i + 1) vs

/-- The slots from `i` on assigned. -/
def setSlots (vm : VM) (i : ℤ) (vs : List Value) : VM :=
  { vm with stack := setFrom vm.stack i.toNat vs }

/-! ### Objects -/

/-- A new object, linked and accounted for by `track_object`. -/
def alloc (sizeof : ObjType → ℕ) (vm : VM) (o : Obj) : VM × Ref :=
  ({ vm with
    objects := ⟨vm.objects.freshRef, false, o⟩ :: vm.objects
    bytesAllocated := vm.bytesAllocated + UInt64.ofNat (Gc.objectSize sizeof o) },
    vm.objects.freshRef)

/-- An object overwritten. -/
def setObj (vm : VM) (r : Ref) (o : Obj) : VM := { vm with objects := vm.objects.set r o }

/-- The closure at an address. -/
def closure? (vm : VM) (r : Ref) : Option ClosureObj :=
  match vm.objects.get? r with
  | some (.closure c) => some c
  | _ => none

/-- The pair at an address, if the value is a key-value object. -/
def keyValue? (vm : VM) (v : Value) : Option (Value × Value) :=
  match v with
  | .obj r => match vm.objects.get? r with
    | some (.keyValue key value) => some (key, value)
    | _ => none
  | _ => none

/-- The text of a value that is a string object. -/
def string? (vm : VM) (v : Value) : Option Bytes :=
  match v with
  | .obj r => (vm.objects.string? r).map (·.chars)
  | _ => none

/-- Whether the closure at an address is inline code. -/
def isInline (vm : VM) (r : Ref) : Bool :=
  match vm.closure? r with
  | some c => c.isInline
  | none => false

/-! ### Frames and handlers -/

/-- `current_frame`; `none` below the first frame. -/
def currentFrame? (vm : VM) : Option CallFrame := vm.frames.getLast?

/-- The current frame changed. -/
def modifyFrame (vm : VM) (f : CallFrame → CallFrame) : VM :=
  { vm with frames := vm.frames.modify (vm.frames.length - 1) f }

/-- The loop down from frame `i` to a frame that is not inline code. -/
def rootIndexFrom (vm : VM) : ℕ → ℕ
  | 0 => 0
  | i + 1 =>
    match vm.frames[i + 1]? with
    | some f => if vm.isInline f.closure then rootIndexFrom vm i else i + 1
    | none => i + 1

/-- The innermost frame that is not inline code: `root_index` of the opcodes that act on it. -/
def rootIndex (vm : VM) : ℕ := vm.rootIndexFrom (vm.frames.length - 1)

/-- The loop of `trim_try_handlers`, on the handlers with the innermost first. -/
def dropAbove (frameCount : ℤ) : List TryHandler → List TryHandler
  | [] => []
  | h :: hs => if h.frameCount > frameCount then dropAbove frameCount hs else h :: hs

/-- `trim_try_handlers`. -/
def trimTryHandlers (vm : VM) (frameCount : ℤ) : VM :=
  { vm with tryHandlers := (dropAbove frameCount vm.tryHandlers.reverse).reverse }

/-- The hash of the innermost local scope of a frame: `current_local_scope`. -/
def currentLocalScope? (vm : VM) (f : CallFrame) : Option (Ref × HashObj) := do
  let scopes ← f.localScopes
  let .array a ← vm.objects.get? scopes | none
  if a.count = 0 then none
  else
    let .obj r := a.elements.getD (a.count - 1) .null | none
    let .hash t ← vm.objects.get? r | none
    return (r, t)

/-! ### What the operations leave alone -/

section Frame

variable (vm : VM) (v : Value) (i : ℤ) (r : Ref)

@[simp] theorem push_objects : (vm.push v).objects = vm.objects := by unfold push; split_ifs <;> rfl

@[simp] theorem push_frames : (vm.push v).frames = vm.frames := by unfold push; split_ifs <;> rfl

@[simp] theorem push_tryHandlers : (vm.push v).tryHandlers = vm.tryHandlers := by
  unfold push; split_ifs <;> rfl

@[simp] theorem pop_objects : vm.pop.2.objects = vm.objects := by unfold pop; split <;> rfl

@[simp] theorem pop_frames : vm.pop.2.frames = vm.frames := by unfold pop; split <;> rfl

@[simp] theorem pop_tryHandlers : vm.pop.2.tryHandlers = vm.tryHandlers := by
  unfold pop; split <;> rfl

@[simp] theorem setTop_objects : (vm.setTop i).objects = vm.objects := rfl

@[simp] theorem setTop_frames : (vm.setTop i).frames = vm.frames := rfl

@[simp] theorem setTop_tryHandlers : (vm.setTop i).tryHandlers = vm.tryHandlers := rfl

@[simp] theorem setSlot_objects : (vm.setSlot i v).objects = vm.objects := rfl

@[simp] theorem setSlot_frames : (vm.setSlot i v).frames = vm.frames := rfl

@[simp] theorem setSlot_tryHandlers : (vm.setSlot i v).tryHandlers = vm.tryHandlers := rfl

@[simp] theorem setSlots_objects (vs : List Value) : (vm.setSlots i vs).objects = vm.objects := rfl

@[simp] theorem setSlots_frames (vs : List Value) : (vm.setSlots i vs).frames = vm.frames := rfl

@[simp] theorem setSlots_tryHandlers (vs : List Value) :
    (vm.setSlots i vs).tryHandlers = vm.tryHandlers := rfl

@[simp] theorem trimTryHandlers_objects : (vm.trimTryHandlers i).objects = vm.objects := rfl

@[simp] theorem trimTryHandlers_frames : (vm.trimTryHandlers i).frames = vm.frames := rfl

@[simp] theorem trimTryHandlers_stack : (vm.trimTryHandlers i).stack = vm.stack := rfl

/-- The machine looks objects up in its heap only. -/
theorem closure?_congr {vm vm' : VM} (h : vm'.objects = vm.objects) :
    vm'.closure? r = vm.closure? r := by
  simp only [closure?, h]

@[simp] theorem push_closure? : (vm.push v).closure? r = vm.closure? r :=
  closure?_congr r (push_objects vm v)

@[simp] theorem pop_closure? : vm.pop.2.closure? r = vm.closure? r :=
  closure?_congr r (pop_objects vm)

@[simp] theorem setTop_closure? : (vm.setTop i).closure? r = vm.closure? r := rfl

theorem rootIndex_congr {vm vm' : VM} (hf : vm'.frames = vm.frames) (ho : vm'.objects = vm.objects) :
    vm'.rootIndex = vm.rootIndex := by
  have hfrom : ∀ i, vm'.rootIndexFrom i = vm.rootIndexFrom i := by
    intro i
    induction i with
    | zero => rfl
    | succ i ih =>
      have hin : ∀ r, vm'.isInline r = vm.isInline r := fun r => by
        rw [isInline, isInline, closure?_congr r ho]
      simp only [rootIndexFrom, hf, hin, ih]
  rw [rootIndex, rootIndex, hf, hfrom]

end Frame

/-! ### Basic facts -/

section Facts

variable (vm : VM) {r : Ref} {o : Obj}

@[simp] theorem setTop_top {t : ℤ} (h : 0 ≤ t) : (vm.setTop t).top = t := by
  simp only [setTop, top, List.length_append, List.length_take, List.length_replicate]
  omega

theorem setTop_of_le {t : ℤ} (h : t ≤ vm.top) : (vm.setTop t).stack = vm.stack.take t.toNat := by
  have h0 : t.toNat - vm.stack.length = 0 := by unfold top at h; omega
  simp only [setTop, h0, List.replicate_zero, List.append_nil]

theorem push_of_lt (v : Value) (h : vm.stack.length < stackMax) :
    vm.push v = { vm with stack := vm.stack ++ [v] } := by
  rw [push, if_neg (by omega)]

theorem alloc_get?_self (sizeof : ObjType → ℕ) (o : Obj) :
    (vm.alloc sizeof o).1.objects.get? (vm.alloc sizeof o).2 = some o := by
  simp only [alloc, Heap.get?_cons, ↓reduceIte]

/-- An allocation keeps the objects there are. -/
theorem alloc_get?_of_some (sizeof : ObjType → ℕ) (o' : Obj) (h : vm.objects.get? r = some o) :
    (vm.alloc sizeof o').1.objects.get? r = some o := by
  simp only [alloc, Heap.get?_cons, if_neg (Heap.ne_freshRef h).symm, h]

theorem length_setFrom (l : List Value) (i : ℕ) (vs : List Value) :
    (setFrom l i vs).length = l.length := by
  induction vs generalizing l i with
  | nil => rfl
  | cons v vs ih => rw [setFrom, ih, List.length_set]

theorem getElem?_setFrom (l : List Value) (i j : ℕ) (vs : List Value) :
    (setFrom l i vs)[j]? = if i ≤ j ∧ j < i + vs.length ∧ j < l.length then vs[j - i]? else l[j]? := by
  induction vs generalizing l i with
  | nil => rw [setFrom, if_neg (by rw [List.length_nil]; omega)]
  | cons v vs ih =>
    rw [setFrom, ih, List.length_set, List.length_cons]
    by_cases hij : i = j
    · subst hij
      rw [if_neg (by omega)]
      by_cases hl : i < l.length
      · rw [List.getElem?_set_self hl, if_pos ⟨Nat.le_refl _, by omega, hl⟩, Nat.sub_self]
        rfl
      · rw [if_neg (by omega), List.set_eq_of_length_le (by omega)]
    · rw [List.getElem?_set_ne hij]
      by_cases hc : i + 1 ≤ j ∧ j < i + 1 + vs.length ∧ j < l.length
      · rw [if_pos hc, if_pos (by omega)]
        obtain ⟨d, hd⟩ : ∃ d, j - i = d + 1 := ⟨j - i - 1, by omega⟩
        rw [hd, List.getElem?_cons_succ]
        congr 1
        omega
      · rw [if_neg hc, if_neg (by omega)]

theorem setFrom_append (l l' : List Value) (i : ℕ) (vs : List Value) :
    setFrom (l ++ l') (l.length + i) vs = l ++ setFrom l' i vs := by
  induction vs generalizing l' i with
  | nil => rfl
  | cons v vs ih =>
    rw [setFrom, setFrom, List.set_append_right _ _ (Nat.le_add_right _ _), Nat.add_sub_cancel_left,
      Nat.add_assoc, ih]

end Facts

end VM

end Slp
