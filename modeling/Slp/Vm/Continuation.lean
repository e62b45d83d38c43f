import Slp.Vm.Coroutine

/-!
# Continuations

`callcc` is `OP_CALLCC`: it copies the frames, the operand stack and the handlers into a
continuation object, suspends the closure that executes it as a yield does, and calls the handler
with the continuation.  Invoking the continuation (`invokeContinuation`) copies the machine of the
invoker into a second continuation object, puts the first copy back, and links the second to the
resumed frame; `opReturn` from that frame puts the second copy back.

A copy holds the stack from its base on, so that a frame's slots have the same offset in the copy
as in the machine.
-/

namespace Slp

namespace VM

/-! ### Returned values -/

/-- The element loop of `slp_vm_taint_value` for the array at `r`, which is read again at every
step. -/
def taintElements (taint : VM → Value → VM × Value) (r : Ref) : VM → List ℕ → VM
  | vm, [] => vm
  | vm, i :: is =>
    match vm.objects.get? r with
    | some (.array a) =>
      let (vm, w) := taint vm (a.elements.getD i .null)
      match vm.objects.get? r with
      | some (.array a) =>
        taintElements taint r (vm.setObj r (.array { a with elements := a.elements.set i w })) is
      | _ => taintElements taint r vm is
    | _ => taintElements taint r vm is

/-- The entry loop of `slp_vm_taint_value` for the hash at `r`. -/
def taintEntries (taint : VM → Value → VM × Value) (r : Ref) : VM → List ℕ → VM
  | vm, [] => vm
  | vm, i :: is =>
    match vm.objects.get? r with
    | some (.hash t) =>
      let e := t.entries.getD i {}
      if e.key = .null ∨ e.value = .null then taintEntries taint r vm is
      else
        let (vm, w) := taint vm e.value
        match vm.objects.get? r with
        | some (.hash t) =>
          taintEntries taint r (vm.setObj r
            (.hash { t with entries := t.entries.modify i fun e => { e with value := w } })) is
        | _ => taintEntries taint r vm is
    | _ => taintEntries taint r vm is

/-- `slp_vm_taint_value` for a container at `r`: all of its elements, or values. -/
def taintContainer (taint : VM → Value → VM × Value) (vm : VM) (r : Ref) : VM :=
  match vm.objects.get? r with
  | some (.array a) => taintElements taint r vm (List.range a.count)
  | some (.hash t) => taintEntries taint r vm (List.range t.entries.length)
  | _ => vm

/-- What `slp_vm_taint_value` descends into for a value: its elements are tainted in place. -/
def taintTarget? (vm : VM) : Value → Option Ref
  | .obj r => match vm.objects.get? r with
    | some (.array _) => some r
    | some (.hash _) => some r
    | some (.javaObject j) => j.list.or j.map
    | _ => none
  | _ => none

/-- `slp_vm_taint_value`, over at most `fuel` nested containers. -/
def taintValue (sizeof : ObjType → ℕ) : (fuel : ℕ) → VM → Value → VM × Value
  | 0, vm, v => (vm, v)
  | fuel + 1, vm, v =>
    if vm.objects.isTainted v then (vm, v)
    else
      match vm.taintTarget? v with
      | some r => (taintContainer (taintValue sizeof fuel) vm r, v)
      | none =>
        let (vm, r) := vm.alloc sizeof (.tainted v)
        (vm, .obj r)

/-- The value a frame returns when its code returns `v`: tainted when its arguments were. -/
def returnedValue (sizeof : ObjType → ℕ) (vm : VM) (f : CallFrame) (v : Value) : VM × Value :=
  if f.taintedArguments then taintValue sizeof (vm.objects.length + 1) vm v else (vm, v)

/-- A returning closure that is not inline drops the local scopes it pushed and did not pop. -/
def dropLeakedScopes (vm : VM) (f : CallFrame) : VM :=
  if vm.isInline f.closure then vm
  else
    match f.localScopes with
    | some r => match vm.objects.get? r with
      | some (.array a) =>
        if a.count > 1 then vm.setObj r (.array { a with count := 1 }) else vm
      | _ => vm
    | none => vm

/-! ### Copies of the machine -/

/-- `capture_vm_context`. -/
def captureVmContext (vm : VM) (stackCount : ℕ) : ContinuationObj where
  frames := vm.frames
  stack := vm.stack.take stackCount
  tryHandlers := vm.tryHandlers

/-- `restore_vm_context`. -/
def restoreVmContext (vm : VM) (k : ContinuationObj) : VM :=
  { vm with frames := k.frames, tryHandlers := k.tryHandlers, stack := k.stack }

/-! ### Invoking a continuation -/

/-- The copy of the invoker's machine, without the callee and the arguments. -/
def returnContinuation (vm : VM) (argCount : ℕ) (hasMessage : Bool) (trace : CallTrace) :
    ContinuationObj :=
  { vm.captureVmContext (vm.callBase argCount hasMessage).toNat with
    returnTraceCall := trace.call
    returnTraceSource := trace.source
    returnTraceLine := trace.line
    returnTraceEnabled := trace.enabled }

/-- The value given to a continuation: the first of message and arguments. -/
def continuationValue (vm : VM) (argCount : ℕ) (hasMessage : Bool) : Value :=
  if 0 < totalArgs argCount hasMessage then vm.slot (vm.callBase argCount hasMessage + 1) else .null

/-- `call_value` on the continuation `k`. -/
def invokeContinuation (sizeof : ObjType → ℕ) (vm : VM) (k : ContinuationObj) (argCount : ℕ)
    (hasMessage : Bool) (trace : CallTrace) : VM :=
  let retVal := vm.continuationValue argCount hasMessage
  let (vm, ret) := vm.alloc sizeof (.continuation (vm.returnContinuation argCount hasMessage trace))
  let vm := match k.coroutineOwner with
    | some owner => vm.clearCoroutineState owner
    | none => vm
  let vm := vm.restoreVmContext k
  let vm :=
    match if k.resumeFrameIndex ≥ 0 then vm.frames[k.resumeFrameIndex.toNat]? else none with
    | some resumed =>
      let vm := { vm with
        frames := vm.frames.modify k.resumeFrameIndex.toNat fun f =>
          { f with continuationReturn := some ret } }
      let vm := vm.setSlot (resumed.slots + 2) retVal
      let (vm, resumedArgs) := vm.alloc sizeof
        (.array (if retVal = Value.null then {} else ({} : ArrayObj).push retVal))
      vm.setSlot (resumed.slots + 11) (.obj resumedArgs)
    | none => vm
  vm.push retVal

/-! ### Capturing a continuation -/

/-- The continuation that `OP_CALLCC` makes: a copy of the whole machine, to be resumed in the
innermost frame that is not inline code. -/
def callccContinuation (vm : VM) (owner : Ref) : ContinuationObj :=
  { vm.captureVmContext vm.stack.length with
    coroutineOwner := some owner
    resumeFrameIndex := vm.rootIndex }

/-- `OP_CALLCC`; `text` is the trace text of the handler call. -/
def callcc (sizeof : ObjType → ℕ) (fmt : Printf) (vm : VM) (hasArg : Bool) (text : Bytes)
    (line : ℤ) : Outcome :=
  let (handler, vm) := if hasArg then vm.pop else (Value.null, vm)
  let rootIndex := vm.rootIndex
  match vm.frames[rootIndex]? with
  | none => .ok vm
  | some root =>
    let owner := root.closure
    let (vm, continuation) := vm.alloc sizeof (.continuation (vm.callccContinuation owner))
    let vm := vm.clearCoroutineState owner
    if vm.top < root.slots then .error "Out of memory." vm
    else
      let vm := vm.setCoroutine owner (some (vm.captureCoroutine rootIndex root.slots true))
      let vm := { vm with frames := vm.frames.take rootIndex }
      let vm := (vm.trimTryHandlers rootIndex).setTop root.slots
      match handler with
      | .obj r =>
        match vm.closure? r with
        | some c =>
          let vm := (vm.push handler).push (.obj continuation)
          match vm.callClosure sizeof fmt r c 1 false (some {}) with
          | .error message vm => .error message vm
          | .ok vm =>
            let source := (vm.closure? owner).bind fun c => match vm.objects.get? c.function with
              | some (.function f) => f.sourceName
              | _ => none
            match Intern.internString (sizeof .string) vm text with
            | some (vm, call) => .ok (vm.modifyFrame (setTrace
                (some ⟨some call, source, line, vm.debugFlags &&& 8 = 8⟩)))
            | none => .ok vm
        | none => .ok (vm.push (.obj continuation))
      | _ => .ok (vm.push (.obj continuation))

/-! ### Returning -/

/-- `OP_RETURN`, up to the tests for the end of the run loop. -/
def opReturn (sizeof : ObjType → ℕ) (vm : VM) : VM :=
  let (result, vm) := vm.pop
  match vm.currentFrame? with
  | none => vm
  | some f =>
    let (vm, result) := vm.returnedValue sizeof f result
    let vm := vm.dropLeakedScopes f
    let vm := { vm with frames := vm.frames.dropLast }
    let vm := vm.trimTryHandlers vm.frames.length
    match f.continuationReturn with
    | some r => match vm.objects.get? r with
      | some (.continuation k) => (vm.restoreVmContext k).push result
      | _ => vm
    | none => (vm.setTop f.slots).push result

/-- `OP_INLINE_RETURN`, up to the tests for the end of the run loop: an explicit return in inline
code leaves the innermost frame that is not inline code. -/
def inlineReturn (vm : VM) : VM :=
  let (result, vm) := vm.pop
  let rootIndex := vm.rootIndex
  match vm.frames[rootIndex]? with
  | none => vm
  | some root =>
    let vm := vm.clearCoroutineState root.closure
    let vm := { vm with frames := vm.frames.take rootIndex }
    let vm := vm.trimTryHandlers rootIndex
    (vm.setTop root.slots).push result

/-! ### What leaves continuations alone -/

/-- `vm'` differs from `vm` in its objects only, and has the continuations of `vm`. -/
structure OnlyHeap (vm vm' : VM) : Prop where
  stack : vm'.stack = vm.stack
  frames : vm'.frames = vm.frames
  tryHandlers : vm'.tryHandlers = vm.tryHandlers
  continuation : ∀ r k, vm.objects.get? r = some (.continuation k) →
    vm'.objects.get? r = some (.continuation k)

namespace OnlyHeap

variable {vm vm' vm'' : VM} {taint : VM → Value → VM × Value}

theorem refl (vm : VM) : OnlyHeap vm vm := ⟨rfl, rfl, rfl, fun _ _ h => h⟩

theorem trans (h : OnlyHeap vm vm') (h' : OnlyHeap vm' vm'') : OnlyHeap vm vm'' :=
  ⟨h'.stack.trans h.stack, h'.frames.trans h.frames, h'.tryHandlers.trans h.tryHandlers,
    fun r k hk => h'.continuation r k (h.continuation r k hk)⟩

theorem alloc (sizeof : ObjType → ℕ) (vm : VM) (o : Obj) : OnlyHeap vm (vm.alloc sizeof o).1 :=
  ⟨rfl, rfl, rfl, fun _ _ hk => alloc_get?_of_some vm sizeof o hk⟩

/-- Overwriting an object that is not a continuation. -/
theorem setObj {r : Ref} {o o' : Obj} (hr : vm.objects.get? r = some o)
    (ho : ∀ k, o ≠ .continuation k) : OnlyHeap vm (vm.setObj r o') := by
  refine ⟨rfl, rfl, rfl, fun s k hk => ?_⟩
  have hrs : r ≠ s := by
    rintro rfl
    exact ho k (Option.some.inj (hr.symm.trans hk))
  exact (Heap.get?_set_ne hrs).trans hk

theorem setCoroutine (vm : VM) (r : Ref) (k : Option Coroutine) :
    OnlyHeap vm (vm.setCoroutine r k) := by
  unfold VM.setCoroutine
  split
  · rename_i c hc
    exact setObj (get?_of_closure? hc) (by simp)
  · exact refl vm

theorem taintElements (ht : ∀ vm v, OnlyHeap vm (taint vm v).1) (r : Ref) (vm : VM)
    (is : List ℕ) : OnlyHeap vm (VM.taintElements taint r vm is) := by
  induction is generalizing vm with
  | nil => exact refl vm
  | cons i is ih =>
    rw [VM.taintElements]
    split
    · rename_i a ha
      have h₁ := ht vm (a.elements.getD i .null)
      dsimp only
      split
      · rename_i a' ha'
        exact (h₁.trans (setObj ha' (by simp))).trans (ih _)
      · exact h₁.trans (ih _)
    · exact ih vm

theorem taintEntries (ht : ∀ vm v, OnlyHeap vm (taint vm v).1) (r : Ref) (vm : VM)
    (is : List ℕ) : OnlyHeap vm (VM.taintEntries taint r vm is) := by
  induction is generalizing vm with
  | nil => exact refl vm
  | cons i is ih =>
    rw [VM.taintEntries]
    split
    · rename_i t ht'
      dsimp only
      split_ifs
      · exact ih vm
      · have h₁ := ht vm (t.entries.getD i {}).value
        split
        · rename_i t' ht''
          exact (h₁.trans (setObj ht'' (by simp))).trans (ih _)
        · exact h₁.trans (ih _)
    · exact ih vm

theorem taintContainer (ht : ∀ vm v, OnlyHeap vm (taint vm v).1) (vm : VM) (r : Ref) :
    OnlyHeap vm (VM.taintContainer taint vm r) := by
  unfold VM.taintContainer
  split
  · exact taintElements ht r vm _
  · exact taintEntries ht r vm _
  · exact refl vm

theorem taintValue (sizeof : ObjType → ℕ) (fuel : ℕ) (vm : VM) (v : Value) :
    OnlyHeap vm (VM.taintValue sizeof fuel vm v).1 := by
  induction fuel generalizing vm v with
  | zero => exact refl vm
  | succ fuel ih =>
    rw [VM.taintValue]
    split_ifs
    · exact refl vm
    · split
      · exact taintContainer ih vm _
      · exact alloc sizeof vm _

theorem returnedValue (sizeof : ObjType → ℕ) (vm : VM) (f : CallFrame) (v : Value) :
    OnlyHeap vm (vm.returnedValue sizeof f v).1 := by
  unfold VM.returnedValue
  split_ifs
  · exact taintValue ..
  · exact refl vm

theorem dropLeakedScopes (vm : VM) (f : CallFrame) : OnlyHeap vm (vm.dropLeakedScopes f) := by
  unfold VM.dropLeakedScopes
  split_ifs
  · exact refl vm
  · split
    · split
      · rename_i a ha
        split_ifs
        · exact setObj ha (by simp)
        · exact refl vm
      · exact refl vm
    · exact refl vm

end OnlyHeap

/-! ### What a continuation should do -/

/-- The opcodes by which a frame returns: `OP_RETURN` in its own code, or `OP_INLINE_RETURN` in
inline code that it called. -/
inductive ReturnOp where
  | ret
  | inlineRet
  deriving DecidableEq

/-- The frame that returns. -/
def ReturnOp.frame? (op : ReturnOp) (vm : VM) : Option CallFrame :=
  match op with
  | .ret => vm.currentFrame?
  | .inlineRet => vm.frames[vm.rootIndex]?

/-- The machine after the return. -/
def ReturnOp.exec (sizeof : ObjType → ℕ) (op : ReturnOp) (vm : VM) : VM :=
  match op with
  | .ret => vm.opReturn sizeof
  | .inlineRet => vm.inlineReturn

/-- The value returned. -/
def ReturnOp.value (sizeof : ObjType → ℕ) (op : ReturnOp) (vm : VM) (f : CallFrame) : Value :=
  match op with
  | .ret => (vm.pop.2.returnedValue sizeof f vm.pop.1).2
  | .inlineRet => vm.pop.1

/-- `vm₂` is the machine captured in `vm₀`, with `v` as the result of `callcc` and for `$1` and
`@_` of the frame `root`, which is linked to the copy `ret` of the invoker's machine. -/
structure ResumesCaptured (vm₀ : VM) (root : CallFrame) (v : Value) (ret : Ref) (vm₂ : VM) :
    Prop where
  frames : vm₂.frames = vm₀.frames.modify vm₀.rootIndex fun f =>
    { f with continuationReturn := some ret }
  tryHandlers : vm₂.tryHandlers = vm₀.tryHandlers
  stack : ∃ args a, vm₂.objects.get? args = some (.array a) ∧
    a.live = (if v = .null then [] else [v]) ∧
    vm₂.stack = (vm₀.stack.set (root.slots + 2).toNat v).set (root.slots + 11).toNat (.obj args) ++
      [v]

/-- `vm₄` is the invoker's machine `vm₁`, with `v` in place of the callee in slot `base` and the
arguments. -/
structure RestoresInvoker (vm₁ : VM) (base : ℕ) (v : Value) (vm₄ : VM) : Prop where
  frames : vm₄.frames = vm₁.frames
  tryHandlers : vm₄.tryHandlers = vm₁.tryHandlers
  stack : vm₄.stack = vm₁.stack.take base ++ [v]

/-- What invoking in `vm₁` the continuation at `kref`, captured in `vm₀`, should do: resume the
captured machine, keep the continuation, and when in any later machine `vm₃` the resumed frame
returns by `op`, go back to the invoker. -/
def ContinuationRoundTrip (sizeof : ObjType → ℕ) (op : ReturnOp) (vm₀ : VM) (root : CallFrame)
    (vm₁ : VM) (kref : Ref) (argCount : ℕ) (hasMessage : Bool) (trace : CallTrace) : Prop :=
  let k := vm₀.callccContinuation root.closure
  let vm₂ := vm₁.invokeContinuation sizeof k argCount hasMessage trace
  let ret := vm₁.objects.freshRef
  let returnTo := vm₁.returnContinuation argCount hasMessage trace
  ResumesCaptured vm₀ root (vm₁.continuationValue argCount hasMessage) ret vm₂ ∧
  vm₂.objects.get? kref = some (.continuation k) ∧
  vm₂.objects.get? ret = some (.continuation returnTo) ∧
  ∀ vm₃ f, vm₃.objects.get? ret = some (.continuation returnTo) → op.frame? vm₃ = some f →
    f.continuationReturn = some ret →
    RestoresInvoker vm₁ (vm₁.callBase argCount hasMessage).toNat (op.value sizeof vm₃ f)
      (op.exec sizeof vm₃)

/-! ### What a continuation does -/

section Invoke

variable {sizeof : ObjType → ℕ} {vm₀ vm₁ vm : VM} {root : CallFrame}

/-- Returning from a frame that is linked to a copy of the machine puts the copy back. -/
theorem opReturn_of_continuationReturn (sizeof : ObjType → ℕ) {f : CallFrame} {r : Ref} {k : ContinuationObj}
    (hk : vm.objects.get? r = some (.continuation k)) (hf : vm.currentFrame? = some f)
    (hr : f.continuationReturn = some r) (hlen : k.stack.length < stackMax) :
    (vm.opReturn sizeof).frames = k.frames ∧ (vm.opReturn sizeof).tryHandlers = k.tryHandlers ∧
      (vm.opReturn sizeof).stack =
        k.stack ++ [(vm.pop.2.returnedValue sizeof f vm.pop.1).2] := by
  have hf' : vm.pop.2.currentFrame? = some f := by
    rw [currentFrame?, pop_frames]
    exact hf
  have hk' : ((vm.pop.2.returnedValue sizeof f vm.pop.1).1.dropLeakedScopes f).objects.get? r =
      some (.continuation k) :=
    (OnlyHeap.dropLeakedScopes _ f).continuation r k
      ((OnlyHeap.returnedValue sizeof vm.pop.2 f vm.pop.1).continuation r k
        (by rw [pop_objects]; exact hk))
  simp only [opReturn, hf', hr, trimTryHandlers_objects, hk']
  rw [push_of_lt _ _ (by exact hlen)]
  exact ⟨rfl, rfl, rfl⟩

/-- The parts of the machine after an invocation. -/
theorem invokeContinuation_spec (sizeof : ObjType → ℕ) (argCount : ℕ) (hasMessage : Bool)
    (trace : CallTrace) {kref owner : Ref} {k : ContinuationObj}
    (hkref : vm₁.objects.get? kref = some (.continuation k))
    (howner : k.coroutineOwner = some owner) {i : ℕ} (hi : k.resumeFrameIndex = i)
    (hroot : k.frames[i]? = some root) :
    ∃ (vm : VM) (args : Ref) (a : ArrayObj),
      vm₁.invokeContinuation sizeof k argCount hasMessage trace =
        vm.push (vm₁.continuationValue argCount hasMessage) ∧
      vm.frames = k.frames.modify i (fun f =>
        { f with continuationReturn := some vm₁.objects.freshRef }) ∧
      vm.tryHandlers = k.tryHandlers ∧
      vm.stack = (k.stack.set (root.slots + 2).toNat
        (vm₁.continuationValue argCount hasMessage)).set (root.slots + 11).toNat (.obj args) ∧
      vm.objects.get? args = some (.array a) ∧
      a.live = (if vm₁.continuationValue argCount hasMessage = .null then []
        else [vm₁.continuationValue argCount hasMessage]) ∧
      vm.objects.get? kref = some (.continuation k) ∧
      vm.objects.get? vm₁.objects.freshRef =
        some (.continuation (vm₁.returnContinuation argCount hasMessage trace)) := by
  set v := vm₁.continuationValue argCount hasMessage with hv
  set ra := vm₁.alloc sizeof (.continuation (vm₁.returnContinuation argCount hasMessage trace))
    with hra
  set vm₂ := ra.1.clearCoroutineState owner with hvm₂
  have hkeep : OnlyHeap vm₁ vm₂ :=
    (OnlyHeap.alloc sizeof vm₁ _).trans (OnlyHeap.setCoroutine ra.1 owner none)
  have hret : vm₂.objects.get? vm₁.objects.freshRef =
      some (.continuation (vm₁.returnContinuation argCount hasMessage trace)) :=
    (OnlyHeap.setCoroutine ra.1 owner none).continuation _ _ (alloc_get?_self vm₁ sizeof _)
  set args : ArrayObj := if v = .null then {} else ({} : ArrayObj).push v with hargs
  set vm₃ : VM := ({ vm₂.restoreVmContext k with
    frames := k.frames.modify i fun f =>
      { f with continuationReturn := some vm₁.objects.freshRef } } : VM).setSlot (root.slots + 2) v
    with hvm₃
  refine ⟨(vm₃.alloc sizeof (.array args)).1.setSlot (root.slots + 11)
    (.obj (vm₃.alloc sizeof (.array args)).2), (vm₃.alloc sizeof (.array args)).2, args, ?_, rfl, rfl,
    rfl, alloc_get?_self vm₃ sizeof _, ?_, ?_, ?_⟩
  · simp only [invokeContinuation, howner, hi, restoreVmContext, Int.toNat_natCast, hroot, ge_iff_le,
      Int.natCast_nonneg, ↓reduceIte]
    rfl
  · rw [hargs]
    split_ifs
    · rfl
    · exact ArrayObj.live_push (Nat.le_refl _) v
  · exact alloc_get?_of_some vm₃ sizeof _ (hkeep.continuation kref k hkref)
  · exact alloc_get?_of_some vm₃ sizeof _ hret

theorem rootIndex_pop (vm : VM) : vm.pop.2.rootIndex = vm.rootIndex :=
  rootIndex_congr (pop_frames vm) (pop_objects vm)

/-- An inline return removes the frame and everything above it, whatever the frame is linked to. -/
theorem inlineReturn_frames (hroot : vm.frames[vm.rootIndex]? = some root) :
    vm.inlineReturn.frames = vm.frames.take vm.rootIndex := by
  simp only [inlineReturn, rootIndex_pop, hroot, push_frames, setTop_frames,
    trimTryHandlers_frames, clearCoroutineState, setCoroutine_frames, pop_frames]

/-- When every frame belongs to `r` and `r` is not inline code, the current frame is the root. -/
theorem rootIndex_replicate {f : CallFrame} {n : ℕ} (hf : vm.frames = List.replicate (n + 1) f)
    (hin : vm.isInline f.closure = false) : vm.rootIndex = n := by
  rw [rootIndex, hf, List.length_replicate, Nat.add_sub_cancel]
  cases n with
  | zero => rfl
  | succ n =>
    rw [rootIndexFrom, hf, List.getElem?_replicate_of_lt (by omega)]
    simp only [hin, Bool.false_eq_true, ↓reduceIte]

end Invoke

/-! ### An owner that is left by inline code -/

section Example

/-- The script `1` has called the closure `3`, which executes `callcc` with the handler `5`; the
inline closure `7` executes `return`. -/
def ownerObjects : Heap :=
  [⟨8, false, .array {}⟩, ⟨7, false, .closure { function := 6, isInline := true }⟩,
    ⟨6, false, .function {}⟩, ⟨5, false, .closure { function := 4 }⟩, ⟨4, false, .function {}⟩,
    ⟨3, false, .closure { function := 2 }⟩, ⟨2, false, .function {}⟩,
    ⟨1, false, .closure { function := 0 }⟩, ⟨0, false, .function {}⟩]

/-- The frame of the script and the frame of the owner. -/
def scriptFrame : CallFrame := { closure := 1, slots := 0 }

@[inherit_doc scriptFrame]
def ownerFrame : CallFrame := { closure := 3, slots := 12 }

/-- The machine at the `callcc`, with the handler taken off the stack. -/
def ownerVM : VM where
  stack := emptySlots 1 8 ++ emptySlots 3 8
  frames := [scriptFrame, ownerFrame]
  objects := ownerObjects

/-- The handler, about to invoke the continuation `9` with a number. -/
def invokingVM : VM where
  stack := emptySlots 1 8 ++ emptySlots 5 8 ++ [.obj 9, .num 1]
  frames := [scriptFrame, { closure := 5, slots := 12 }]
  objects := ⟨9, false, .continuation (ownerVM.callccContinuation 3)⟩ :: ownerObjects

/-- The owner after it was resumed and has called the inline closure, at the `return` there. -/
def leavingVM : VM where
  stack := emptySlots 1 8 ++ emptySlots 3 11 ++ emptySlots 7 8 ++ [.num 2]
  frames := [scriptFrame, { ownerFrame with continuationReturn := some 10 },
    { closure := 7, slots := 24 }]
  objects :=
    (invokingVM.invokeContinuation (fun _ => 16) (ownerVM.callccContinuation 3) 1 false {}).objects

end Example

end VM

end Slp
