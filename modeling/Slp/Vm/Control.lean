import Slp.Vm.Continuation

/-!
# Run loops and tables of globals

What decides which code runs next and which globals it sees: the frames, the handlers,
`vm->globals`, and the calls of `slp_vm_call` that have not returned.  Each of these has a run loop
of its own, so that loops nest when a native function calls back; `builtin_fork` is such a function,
and its loop runs with a table of globals made for the child.

The values of the machine are left out: an instruction is known by what it does to this part
(`Event`), and one that does nothing to it but may write the globals is an `Event.data`.  A frame
carries the table of globals that its code belongs to, which no instruction looks at.
-/

namespace Slp

namespace Control

/-- The bindings of a table of globals. -/
abbrev Table := Bytes → Option Value

/-- A frame: `closure->is_inline`, and the table of the code that runs in it. -/
structure Frame where
  isInline : Bool
  owner : Ref
  deriving DecidableEq, Repr

/-- The tables of a fork; `before` has the bindings of the parent when it was called. -/
structure Fork where
  parent : Ref
  child : Ref
  before : Table

/-- What called `slp_vm_call`. -/
inductive Caller where
  /-- The host, or a native function that leaves the frames as they are. -/
  | plain
  /-- `slp_vm_call_value` or `slp_vm_eval_inline`, with the counts they put back. -/
  | restoring (frameCount handlerCount : ℕ)
  /-- `builtin_fork`. -/
  | fork (f : Fork)

/-- A call of `slp_vm_call`: its `target_frame_count` and its caller. -/
structure Loop where
  target : ℕ
  caller : Caller

/-- The control state. -/
structure Machine where
  frames : List Frame
  /-- `frame_count` of the entries of the handler array. -/
  handlers : ℕ → ℕ
  handlerCount : ℕ
  globals : Ref
  tables : Ref → Table
  /-- The calls in progress, the innermost one first. -/
  loops : List Loop

/-- The frames and handlers that `call_closure` adds: one frame, those of a suspended activation,
or none if it gives up the call. -/
structure Activation where
  inlines : List Bool
  handlers : List ℕ

/-- The frames and handlers of a continuation. -/
structure Copy where
  frames : List Frame
  handlers : List ℕ

/-- What an instruction does. -/
inductive Event where
  /-- It writes the globals, or does nothing to the control state. -/
  | data (t : Table)
  | call (a : Activation)
  | pushHandler
  | popHandler
  | throw
  | opReturn
  /-- `OP_RETURN` from a frame that was entered through a continuation. -/
  | returnTo (k : Copy)
  | inlineReturn
  | yield
  /-- `OP_CALLCC`, with the activation of its handler if that is a closure. -/
  | callcc (handler : Option Activation)
  /-- A call of a continuation. -/
  | invoke (k : Copy)
  /-- The end of an iteration with `abort_requested`. -/
  | abort
  /-- The same with `flow_exit_requested`. -/
  | exit
  /-- `OP_DONE` or `OP_HALT`. -/
  | done
  /-- A return of `SLP_RUNTIME_ERROR`. -/
  | error
  /-- A native function other than `fork` calls a closure. -/
  | callback (a : Activation) (restoring : Bool)
  /-- `builtin_fork` of a closure, with its named arguments. -/
  | fork (isInline : Bool) (child : Ref) (clone : Value → Value) (handle : Value)
    (arguments : List (Bytes × Value))
  /-- `slp_vm_interpret`, where no call is in progress. -/
  | interpret

namespace Machine

/-- `root_index`: the innermost frame from `i` down that is not inline code. -/
def rootIndexFrom (frames : List Frame) : ℕ → ℕ
  | 0 => 0
  | i + 1 => if (frames[i + 1]?.map (·.isInline)).getD false then rootIndexFrom frames i else i + 1

/-- `root_index` from the current frame. -/
def rootIndex (m : Machine) : ℕ := rootIndexFrom m.frames (m.frames.length - 1)

/-- `trim_try_handlers` on the handler count. -/
def trimmed (handlers : ℕ → ℕ) (frameCount : ℕ) : ℕ → ℕ
  | 0 => 0
  | count + 1 => if handlers count > frameCount then trimmed handlers frameCount count else count + 1

/-- The frames from `n` on are left. -/
def leave (m : Machine) (n : ℕ) : Machine :=
  { m with frames := m.frames.take n, handlerCount := trimmed m.handlers n m.handlerCount }

/-- The table of the code that runs. -/
def owner (m : Machine) : Ref := (m.frames.getLast?.map (·.owner)).getD m.globals

/-- `call_closure` for code of the table `owner`. -/
def enter (m : Machine) (owner : Ref) (a : Activation) : Machine :=
  { m with
    frames := m.frames ++ a.inlines.map (⟨·, owner⟩)
    handlers := fun i =>
      if i < m.handlerCount then m.handlers i else a.handlers.getD (i - m.handlerCount) (m.handlers i)
    handlerCount := m.handlerCount + a.handlers.length }

/-- `restore_vm_context`. -/
def restore (m : Machine) (k : Copy) : Machine :=
  { m with
    frames := k.frames
    handlers := fun i => k.handlers.getD i (m.handlers i)
    handlerCount := k.handlers.length }

/-- The innermost call of `slp_vm_call` returns, and its caller goes on. -/
def finish (m : Machine) : Machine :=
  match m.loops with
  | [] => m
  | l :: loops =>
    match l.caller with
    | .plain => { m with loops }
    | .restoring frameCount handlerCount =>
      { m with loops, frames := m.frames.take frameCount, handlerCount }
    | .fork f => { m with loops, globals := f.parent }

/-- `target_frame_count` of the innermost loop. -/
def target (m : Machine) : ℕ := (m.loops.head?.map (·.target)).getD 0

/-- The test for the target frame count; the returns also end the loop without any frame. -/
def settle (m : Machine) (atZero : Bool) : Machine :=
  if m.frames.length = m.target ∨ atZero ∧ m.frames.length = 0 then m.finish else m

/-- `slp_vm_call` from a native function: the activation and the loop. -/
def callVm (m : Machine) (owner : Ref) (a : Activation) (caller : Caller) : Machine :=
  let m' := m.enter owner a
  { m' with loops := ⟨m'.frames.length - 1, caller⟩ :: m.loops }

/-- `fork_copy_environment`: names that start like a variable are left out, and closures cloned. -/
def forkCopyEnvironment (clone : Value → Value) (source : Table) : Table := fun name =>
  if VM.isAddressable name then none else (source name).map clone

/-- The table of a child. -/
def childTable (clone : Value → Value) (handle : Value) (arguments : List (Bytes × Value))
    (source : Table) : Table :=
  arguments.foldl (fun t (name, value) => Function.update t name (some value))
    (Function.update (forkCopyEnvironment clone source) (ascii "$source") (some handle))

/-- One instruction. -/
def step (m : Machine) : Event → Machine
  | .data t => { m with tables := Function.update m.tables m.globals t }
  | .call a => m.enter m.owner a
  | .pushHandler =>
    if m.handlerCount < maxHandlers then
      { m with
        handlers := Function.update m.handlers m.handlerCount m.frames.length
        handlerCount := m.handlerCount + 1 }
    else m
  | .popHandler => { m with handlerCount := m.handlerCount - 1 }
  | .throw =>
    if m.handlerCount = 0 then m.finish
    else
      { m with
        frames := m.frames.take (m.handlers (m.handlerCount - 1))
        handlerCount := m.handlerCount - 1 }
  | .opReturn => (m.leave (m.frames.length - 1)).settle true
  | .returnTo k => (m.leave (m.frames.length - 1)).restore k
  | .inlineReturn => (m.leave m.rootIndex).settle true
  | .yield => (m.leave m.rootIndex).settle false
  | .callcc none => m.leave m.rootIndex
  | .callcc (some a) => (m.leave m.rootIndex).enter m.owner a
  | .invoke k => m.restore k
  | .abort => (m.leave (m.frames.length - 1)).settle false
  | .exit => (m.leave (min m.target m.frames.length)).finish
  | .done => m.finish
  | .error => m.finish
  | .callback a restoring =>
    m.callVm m.owner a (if restoring then .restoring m.frames.length m.handlerCount else .plain)
  | .fork isInline child clone handle arguments =>
    let m' := m.callVm child ⟨[isInline], []⟩ (.fork ⟨m.globals, child, m.tables m.globals⟩)
    { m' with
      globals := child
      tables := Function.update m.tables child
        (childTable clone handle arguments (m.tables m.globals)) }
  | .interpret =>
    { m with
      frames := [⟨false, m.globals⟩]
      handlerCount := 0
      loops := [⟨0, .plain⟩] }

end Machine

end Control

end Slp
