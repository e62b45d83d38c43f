import Slp.Vm.Arguments
import Slp.Vm.Continuation

/-!
# Nested runs of the machine

A native function calls script code with `slp_vm_call`, which runs a loop of its own until the frame
that it made is gone.  So calls nest, and each ends in its own way: the frame returns, an error
stops the loop, or a throw or a continuation takes control elsewhere.

## Main definitions

* `Machine` : the machine with its calls of `slp_vm_call` in progress, the innermost one first.
* `Event` : what happens next.  The opcodes that call, return, throw or suspend are those of the
  machine (`VM.callClosure`, `VM.opReturn`, `VM.yield`, `VM.callcc`, ...); what any other opcode or
  a native function does is left open, but for the frames and the handlers (`Event.data`).
* `Machine.step` : the machine after the event, or the end of the outermost call.
* `Run` : the runs whose events meet a condition.
-/

namespace Slp

/-- `SlpResult`. -/
inductive SlpResult where
  | ok | compileError | runtimeError | halt
  deriving DecidableEq, Repr

namespace VM

/-! ### Opcodes -/

/-- `vm->try_handler_count = count`.  Raising the count makes stale handlers live again; they are
not tracked and read as empty. -/
def setHandlerCount (vm : VM) (count : ℕ) : VM :=
  { vm with
    tryHandlers := vm.tryHandlers.take count ++
      List.replicate (count - vm.tryHandlers.length) ⟨0, 0, 0⟩ }

/-- The end of `slp_vm_call_value` and of `slp_vm_eval_inline`: frames are only dropped, the other two
counts are assigned. -/
def restoreMarks (vm : VM) (top : ℤ) (frameCount handlerCount : ℕ) : VM :=
  ({ vm with frames := vm.frames.take frameCount }.setHandlerCount handlerCount).setTop top

/-- `OP_PUSH_HANDLER`. -/
def pushHandler (vm : VM) (catchIp : ℕ) : VM :=
  if vm.tryHandlers.length < maxHandlers then
    { vm with tryHandlers := vm.tryHandlers ++ [⟨catchIp, vm.frames.length, vm.top⟩] }
  else vm

/-- `OP_POP_HANDLER`. -/
def popHandler (vm : VM) : VM := { vm with tryHandlers := vm.tryHandlers.dropLast }

/-- `OP_THROW` of `exc` to the handler `h`, which is taken off. -/
def catchWith (vm : VM) (h : TryHandler) (exc : Value) : VM :=
  let vm := vm.popHandler
  let vm := { vm with frames := vm.frames.take h.frameCount.toNat }
  let vm := vm.modifyFrame fun f => { f with ip := h.catchIp }
  (vm.setTop h.stackCount).push exc

/-- The end of an iteration with `abort_requested`: the frames from `stop` on are left. -/
def abortTo (vm : VM) (stop : ℕ) : VM :=
  let slots := ((vm.frames[stop]?).or vm.currentFrame?).elim 0 (·.slots)
  let vm := { vm with frames := vm.frames.take stop }
  let vm := ((vm.trimTryHandlers vm.frames.length).setTop slots).push .null
  { vm with abortRequested := false, flowExitRequested := false }

/-- The object that is called, below `total` slots of the stack. -/
def callee? (vm : VM) (total : ℕ) : Option (Ref × Obj) :=
  match vm.peek total with
  | .obj r => (vm.objects.get? r).map fun o => (r, o)
  | _ => none

/-- The continuation that the current frame returns to, if it was entered through one. -/
def returnsTo? (vm : VM) : Option ContinuationObj := do
  let f ← vm.currentFrame?
  let r ← f.continuationReturn
  match vm.objects.get? r with
  | some (.continuation k) => some k
  | _ => none

/-- The value that `OP_RETURN` returns. -/
def returned (sizeof : ObjType → ℕ) (vm : VM) : Value :=
  vm.currentFrame?.elim .null fun f => (vm.pop.2.returnedValue sizeof f vm.pop.1).2

end VM

namespace Nested

/-- Who called `slp_vm_call`. -/
inductive Caller where
  /-- The caller of the outermost call. -/
  | host
  /-- A native function that takes the machine as it is left. -/
  | plain
  /-- `slp_vm_call_value` or `slp_vm_eval_inline`, with what they put back. -/
  | restoring (top : ℤ) (frameCount handlerCount : ℕ)
  deriving DecidableEq

/-- A call of `slp_vm_call`: the `target_frame_count` of its loop, or none if the callee is a native
function, the number of frames below it, and the number of its arguments. -/
structure Call where
  target : Option ℤ
  base : ℕ
  caller : Caller
  totalArgs : ℕ

/-- The machine and its calls in progress, the innermost one first. -/
structure Machine where
  vm : VM
  calls : List Call

/-- The machine, or the end of the outermost call: its result, the value that the callee completed
with, and the machine. -/
inductive State where
  | running (m : Machine)
  | ended (result : SlpResult) (value : Option Value) (vm : VM)

/-- What happens next. -/
inductive Event where
  /-- Another opcode, or a native function, which write at most frame `i`. -/
  | data (vm' : VM) (i : ℕ)
  /-- `call_value` on the closure `c` at `r`. -/
  | call (r : Ref) (c : ClosureObj) (argCount : ℕ) (hasMessage : Bool) (trace : Option CallTrace)
  /-- `call_value` on a continuation. -/
  | invoke (k : ContinuationObj) (argCount : ℕ) (hasMessage : Bool) (trace : CallTrace)
  | pushHandler (catchIp : ℕ)
  | popHandler
  | throw
  | opReturn
  | inlineReturn
  | yield
  | callcc (hasArg : Bool) (text : Bytes) (line : ℤ)
  /-- The end of an iteration with `abort_requested`. -/
  | abort
  | done
  | halt
  /-- A runtime error. -/
  | error
  /-- `slp_vm_call` by a native function. -/
  | callback (argCount : ℕ) (hasMessage : Bool) (caller : Caller)
  /-- The native function that was called returns. -/
  | nativeReturn (v : Value)
  /-- The native function that was called is the marker `invoke`: it puts another callee and its
  arguments in place of its own, and calls it, but no loop runs the frame. -/
  | invokeMarker (vm' : VM) (argCount : ℕ)

namespace Machine

variable (sizeof : ObjType → ℕ) (fmt : Printf)

/-- The innermost call of `slp_vm_call` returns. -/
def finish (m : Machine) (result : SlpResult) (value : Option Value) : State :=
  match m.calls with
  | [] => .ended result value m.vm
  | c :: calls =>
    match c.caller with
    | .host => .ended result value m.vm
    | .plain => .running { m with calls }
    | .restoring top frameCount handlerCount =>
      .running ⟨m.vm.restoreMarks top frameCount handlerCount, calls⟩

/-- `target_frame_count` of the innermost call. -/
def target? (m : Machine) : Option ℤ := m.calls.head?.bind (·.target)

/-- The value that the callee of the innermost call has completed with, if no frame of it is left. -/
def completed (m : Machine) (value : Value) : Option Value :=
  m.calls.head?.bind fun c => if m.vm.frames.length ≤ c.base then some value else none

/-- The loop goes on, unless its target frame count is reached, or `atZero` and no frame is left. -/
def settle (m : Machine) (atZero : Bool) (value : Value) : State :=
  if m.target? = some (m.vm.frames.length : ℤ) ∨ atZero ∧ m.vm.frames.length = 0 then
    m.finish .ok (m.completed value)
  else .running m

/-- What `call_closure` leaves: the loop goes on, or ends with the error. -/
def ofOutcome (m : Machine) : Outcome → State
  | .ok vm => .running { m with vm }
  | .error _ vm => { m with vm }.finish .runtimeError none

/-- `call_value` on what cannot be called, by `slp_vm_call`. -/
def ignore (m : Machine) (total : ℕ) : State :=
  { m with vm := (m.vm.setTop (m.vm.top - total - 1)).push .null }.finish .ok (some .null)

/-- `slp_vm_call`, up to its loop. -/
def callVm (m : Machine) (argCount : ℕ) (hasMessage : Bool) (caller : Caller) : State :=
  let total := VM.totalArgs argCount hasMessage
  let base := m.vm.frames.length
  let m' : Machine := { m with calls := ⟨none, base, caller, total⟩ :: m.calls }
  match m.vm.callee? total with
  | some (r, .closure c) =>
    match m.vm.callClosure sizeof fmt r c argCount hasMessage (some {}) with
    | .ok vm => .running ⟨vm, ⟨some (vm.frames.length - 1), base, caller, total⟩ :: m.calls⟩
    | .error _ vm => { m' with vm }.finish .runtimeError none
  | some (_, .native _) => .running m'
  | some (_, .continuation k) =>
    { m' with vm := m.vm.invokeContinuation sizeof k argCount hasMessage {} }.finish .ok none
  | _ => m'.ignore total

/-- The call that the marker `invoke` makes, as the callee of `slp_vm_call`. -/
def callMarked (m : Machine) (argCount : ℕ) : State :=
  let total := VM.totalArgs argCount true
  match m.vm.callee? total with
  | some (r, .closure c) =>
    match m.vm.callClosure sizeof fmt r c argCount true (some {}) with
    | .ok vm => { m with vm }.finish .ok none
    | .error _ vm => { m with vm }.finish .runtimeError none
  | some (_, .native _) =>
    .running { m with calls := m.calls.modify 0 fun c => { c with totalArgs := total } }
  | some (_, .continuation k) =>
    { m with vm := m.vm.invokeContinuation sizeof k argCount true {} }.finish .ok none
  | _ => m.ignore total

/-- The frame count to which `exit` unwinds. -/
def exitTarget (m : Machine) : ℕ := (m.target?.getD 0).toNat

/-- The frame count to which the end of an iteration with `abort_requested` unwinds. -/
def stopCount (m : Machine) : ℕ :=
  if m.vm.flowExitRequested then m.exitTarget else m.vm.frames.length - 1

/-- One event. -/
def step (m : Machine) : Event → State
  | .data vm _ => .running { m with vm }
  | .call r c argCount hasMessage trace =>
    m.ofOutcome (m.vm.callClosure sizeof fmt r c argCount hasMessage trace)
  | .invoke k argCount hasMessage trace =>
    .running { m with vm := m.vm.invokeContinuation sizeof k argCount hasMessage trace }
  | .pushHandler catchIp => .running { m with vm := m.vm.pushHandler catchIp }
  | .popHandler => .running { m with vm := m.vm.popHandler }
  | .throw =>
    let (exc, vm) := m.vm.pop
    match vm.tryHandlers.getLast? with
    | some h => .running { m with vm := vm.catchWith h exc }
    | none => { m with vm := { vm with thrownException := exc } }.finish .runtimeError none
  | .opReturn =>
    let vm := m.vm.opReturn sizeof
    if m.vm.returnsTo?.isSome then .running { m with vm }
    else if vm.frames.length = 0 ∧ m.target? ≠ some 0 then
      -- the loop ends before the result is pushed
      { m with vm := { vm with stack := m.vm.pop.2.stack } }.finish .ok none
    else { m with vm }.settle false (m.vm.returned sizeof)
  | .inlineReturn => { m with vm := m.vm.inlineReturn }.settle true m.vm.pop.1
  | .yield =>
    match m.vm.yield with
    | .ok vm => { m with vm }.settle false m.vm.pop.1
    | .error _ vm => { m with vm }.finish .runtimeError none
  | .callcc hasArg text line => m.ofOutcome (m.vm.callcc sizeof fmt hasArg text line)
  | .abort =>
    let m' : Machine := { m with vm := m.vm.abortTo m.stopCount }
    if m.vm.flowExitRequested then m'.finish .ok (m'.completed .null) else m'.settle false .null
  | .done => m.finish .ok none
  | .halt => m.finish .halt none
  | .error => m.finish .runtimeError none
  | .callback argCount hasMessage caller => m.callVm sizeof fmt argCount hasMessage caller
  | .nativeReturn v =>
    let total := (m.calls.head?.map (·.totalArgs)).getD 0
    { m with vm := (m.vm.setTop (m.vm.top - total - 1)).push v }.finish .ok (some v)
  | .invokeMarker vm argCount => { m with vm }.callMarked sizeof fmt argCount

end Machine

/-- What the code keeps: the stack and the slots of the frames lie in the array of the stack, the
links of the frames are continuations, and a saved activation has a frame. -/
structure WellFormed (vm : VM) : Prop where
  stack : vm.stack.length ≤ stackMax
  slots : ∀ f ∈ vm.frames, f.slots < stackMax
  links : ∀ f ∈ vm.frames, ∀ r, f.continuationReturn = some r →
    ∃ k, vm.objects.get? r = some (.continuation k)
  saved : ∀ r c k, vm.closure? r = some c → c.coroutine = some k → k.frames ≠ []

/-- The innermost call runs its loop. -/
def Machine.InLoop (m : Machine) : Prop :=
  m.vm.frames ≠ [] ∧ ∃ c calls, m.calls = c :: calls ∧ c.target.isSome

/-- A native function runs that was the callee of the innermost call. -/
def Machine.InNative (m : Machine) : Prop :=
  ∃ c calls, m.calls = c :: calls ∧ c.target = none

/-- What can happen. -/
def Machine.Legal (m : Machine) : Event → Prop
  | .data vm' i => (∃ f, vm'.frames = m.vm.frames.set i f) ∧ vm'.tryHandlers = m.vm.tryHandlers
  | .call r c _ _ _ => m.InLoop ∧ m.vm.closure? r = some c
  | .invoke k _ _ _ => m.InLoop ∧ ∃ r, m.vm.objects.get? r = some (.continuation k)
  | .abort => m.InLoop ∧ m.vm.abortRequested = true
  | .callback _ _ caller =>
    match caller with
    | .host => False
    | .plain => True
    | .restoring _ frameCount handlerCount =>
      frameCount = m.vm.frames.length ∧ handlerCount = m.vm.tryHandlers.length
  | .nativeReturn _ => m.InNative
  | .invokeMarker vm' _ =>
    m.InNative ∧ vm'.frames = m.vm.frames ∧ vm'.tryHandlers = m.vm.tryHandlers
  | .error => m.InLoop ∨ m.InNative
  | _ => m.InLoop

/-- The runs from a state, all of whose events meet the condition `ok`. -/
inductive Run (sizeof : ObjType → ℕ) (fmt : Printf) (ok : Machine → Event → Prop) (s : State) :
    State → Prop where
  | start : Run sizeof fmt ok s s
  | step {m : Machine} (hrun : Run sizeof fmt ok s (.running m)) (e : Event)
      (hvm : WellFormed m.vm) (hlegal : m.Legal e) (hok : ok m e) :
      Run sizeof fmt ok s (m.step sizeof fmt e)

end Nested

end Slp
