import Mathlib.Data.Nat.Notation
import Mathlib.Data.Int.Notation

/-!
# Values, heap objects and the virtual machine

The data the virtual machine works on: tagged values, the heap object kinds, call frames and try
handlers, and the machine state itself.

A heap object is known by its address, a `Ref`.  The intrusive list `vm->objects` is the list of
heap cells `VM.objects`, newest first; a cell carries the address, the mark bit and the object.  A
pointer that may be `NULL` is an `Option Ref`.  `VM.stack` and `VM.frames` hold the live part of
the two fixed arrays, bottom first, so that `stack_top - stack` is `stack.length` and
`frame_count` is `frames.length`; a slot pointer of a frame is the offset from the base of the
array it points into.  The payload of a number is an integer: the parts of the machine modelled
here use numbers as positions and flags only.  The C fields that are signed and are shifted by
differences of pointers (`slots`, the counts of a handler) are integers.
-/

namespace Slp

/-- The address of a heap object. -/
abbrev Ref := ℕ

/-- The bytes of a string. -/
abbrev Bytes := List UInt8

/-- The bytes of an ASCII text. -/
def ascii (s : String) : Bytes := s.toList.map fun c => UInt8.ofNat c.toNat

/-- A tagged value. -/
inductive Value where
  | null
  | bool (b : Bool)
  | num (n : ℤ)
  | obj (r : Ref)
  deriving DecidableEq, Repr, Inhabited

/-- The type tags of heap objects. -/
inductive ObjType where
  | string | classObj | javaObject | long | double | array | hash | function | closure | upvalue
  | continuation | native | bridge | ioHandle | keyValue | tainted | scalarCell
  deriving DecidableEq, Repr

/-- A call frame. -/
structure CallFrame where
  /-- Offset of the next instruction byte in the code of the closure. -/
  ip : ℕ := 0
  closure : Ref
  /-- Offset of the callee's slot from the base of the stack the frame belongs to. -/
  slots : ℤ
  localScopes : Option Ref := none
  closureScope : Option Ref := none
  foreachPending : Bool := false
  foreachArray : Option Ref := none
  foreachHash : Option Ref := none
  foreachKey : Value := .null
  foreachIndex : ℤ := -1
  foreachIteratorOffset : ℤ := -1
  foreachActive : Bool := false
  foreachIterationArray : Option Ref := none
  foreachIterationVersion : ℕ := 0
  foreachLastKey : Value := .null
  foreachLastValue : Value := .null
  foreachInvalidated : Bool := false
  continuationReturn : Option Ref := none
  traceCall : Option Ref := none
  traceSource : Option Ref := none
  traceLine : ℤ := -1
  traceEnabled : Bool := false
  taintedArguments : Bool := false
  deriving DecidableEq, Repr

/-- An entered try block. -/
structure TryHandler where
  /-- Code offset of the catch part. -/
  catchIp : ℕ
  frameCount : ℤ
  stackCount : ℤ
  deriving DecidableEq, Repr

/-- The suspended activation of a closure: the stack segment from its first slot, the frames with
slots relative to that segment, and the handlers relative to both. -/
structure Coroutine where
  stack : List Value
  frames : List CallFrame
  needsResult : Bool
  tryHandlers : List TryHandler
  deriving DecidableEq, Repr

/-- Compiled code and its constants. -/
structure Chunk where
  code : List UInt8 := []
  constants : List Value := []
  deriving DecidableEq, Repr

structure StringObj where
  chars : Bytes
  hash : UInt32
  deriving DecidableEq, Repr

structure ClassObj where
  name : Ref
  isInterface : Bool := false
  interfaces : Option Ref := none
  fields : Option Ref := none
  deriving DecidableEq, Repr

inductive JavaObjectKind where
  | generic | list | map | iterator | proxy | error | profileStatistic | semaphore
  deriving DecidableEq, Repr

structure JavaObject where
  classObject : Ref
  kind : JavaObjectKind
  list : Option Ref := none
  map : Option Ref := none
  fields : Option Ref := none
  value : Value := .null
  deriving DecidableEq, Repr

/-- An array: `elements` is the allocated storage, of which the first `count` are live. -/
structure ArrayObj where
  elements : List Value := []
  count : ℕ := 0
  mutationVersion : ℕ := 0
  viewSource : Option Ref := none
  viewOffset : ℕ := 0
  viewSourceVersion : ℕ := 0
  viewInvalid : Bool := false
  readOnly : Bool := false
  deriving DecidableEq, Repr

structure HashEntry where
  key : Value := .null
  value : Value := .null
  sequence : ℕ := 0
  deriving DecidableEq, Repr

/-- A hash table; the capacity is the number of entries. -/
structure HashObj where
  entries : List HashEntry := []
  count : ℕ := 0
  nextSequence : ℕ := 0
  orderMode : ℕ := 0
  missPolicy : Option Ref := none
  removalPolicy : Option Ref := none
  deriving DecidableEq, Repr

structure FunctionObj where
  arity : ℕ := 0
  upvalueCount : ℕ := 0
  chunk : Chunk := {}
  name : Option Ref := none
  sourceName : Option Ref := none
  lineStart : ℤ := 0
  lineEnd : ℤ := 0
  deriving DecidableEq, Repr

structure RegexState where
  text : Ref
  pattern : Ref
  nextOffset : ℕ
  sequence : ℕ
  deriving DecidableEq, Repr

/-- A closure; `coroutine` is present while it is suspended. -/
structure ClosureObj where
  function : Ref
  upvalues : List (Option Ref) := []
  scope : Option Ref := none
  isInline : Bool := false
  callName : Option Ref := none
  identity : ℕ := 0
  regexStates : List RegexState := []
  lastRegexMatches : Option Ref := none
  coroutine : Option Coroutine := none
  deriving DecidableEq, Repr

/-- A continuation: a copy of the frames, the stack and the handlers of the machine. -/
structure ContinuationObj where
  frames : List CallFrame := []
  stack : List Value := []
  coroutineOwner : Option Ref := none
  tryHandlers : List TryHandler := []
  resumeFrameIndex : ℤ := -1
  returnTraceCall : Option Ref := none
  returnTraceSource : Option Ref := none
  returnTraceLine : ℤ := -1
  returnTraceEnabled : Bool := false
  deriving DecidableEq, Repr

/-- A native function, known by the name of its C function. -/
structure NativeObj where
  fn : String
  name : Option Ref := none
  preserveReferences : Bool := false
  deriving DecidableEq, Repr

structure BridgeObj where
  keyword : Option Ref := none
  name : Option Ref := none
  closure : Option Ref := none
  deriving DecidableEq, Repr

/-- An I/O handle, as far as it holds values. -/
structure IOHandleObj where
  token : Value := .null
  tokenReady : Bool := false
  objectValues : List Value := []
  deriving DecidableEq, Repr

/-- A heap object. -/
inductive Obj where
  | string (s : StringObj)
  | classObj (c : ClassObj)
  | javaObject (j : JavaObject)
  | long (value : ℤ)
  | double (bits : UInt64)
  | array (a : ArrayObj)
  | hash (h : HashObj)
  | function (f : FunctionObj)
  | closure (c : ClosureObj)
  | upvalue (closed : Value)
  | continuation (c : ContinuationObj)
  | native (n : NativeObj)
  | bridge (b : BridgeObj)
  | ioHandle (h : IOHandleObj)
  | keyValue (key value : Value)
  | tainted (value : Value)
  | scalarCell (value : Value) (watchName : Option Ref)
  deriving DecidableEq, Repr

/-- The type tag of an object. -/
def Obj.type : Obj → ObjType
  | .string _ => .string
  | .classObj _ => .classObj
  | .javaObject _ => .javaObject
  | .long _ => .long
  | .double _ => .double
  | .array _ => .array
  | .hash _ => .hash
  | .function _ => .function
  | .closure _ => .closure
  | .upvalue _ => .upvalue
  | .continuation _ => .continuation
  | .native _ => .native
  | .bridge _ => .bridge
  | .ioHandle _ => .ioHandle
  | .keyValue _ _ => .keyValue
  | .tainted _ => .tainted
  | .scalarCell _ _ => .scalarCell

/-- An object linked on `vm->objects`. -/
structure HeapCell where
  ref : Ref
  isMarked : Bool := false
  obj : Obj
  deriving DecidableEq, Repr

/-- The objects tracked by the machine, newest first. -/
abbrev Heap := List HeapCell

/-- The object at an address. -/
def Heap.get? (h : Heap) (r : Ref) : Option Obj := (h.find? (·.ref == r)).map (·.obj)

/-- The object at an address replaced. -/
def Heap.set (h : Heap) (r : Ref) (o : Obj) : Heap :=
  h.map fun c => if c.ref == r then { c with obj := o } else c

/-- The address the allocator hands out next: one at which no object is linked. -/
def Heap.freshRef : Heap → Ref
  | [] => 0
  | c :: h => max (c.ref + 1) (freshRef h)

/-- The machine state. -/
structure VM where
  stack : List Value := []
  frames : List CallFrame := []
  globals : Option Ref := none
  objects : Heap := []
  /-- The intern table; absent until the first string. -/
  interned : Option (List (Option Ref)) := none
  internedCount : ℕ := 0
  openUpvalues : List Ref := []
  natives : Option Ref := none
  bytesAllocated : UInt64 := 0
  nextGcThreshold : UInt64 := 0
  /-- The gray stack of the collector, top first. -/
  gray : List Ref := []
  debugFlags : ℕ := 1
  ffiSlots : List Value := []
  /-- The closures of the host's callable handles. -/
  callables : List Value := []
  abortRequested : Bool := false
  flowExitRequested : Bool := false
  thrownException : Value := .null
  lastError : Value := .null
  tryHandlers : List TryHandler := []
  lastRegexMatches : Option Ref := none
  lastStackTrace : Option Ref := none
  profileStatistics : Option Ref := none
  packedObjects : Option Ref := none
  consoleHandle : Option Ref := none
  nextClosureIdentity : ℕ := 0
  deriving DecidableEq, Repr

/-- Size of the value stack. -/
def stackMax : ℕ := 4096

/-- Capacity of the frame array. -/
def maxFrames : ℕ := 512

/-- Capacity of the handler array. -/
def maxHandlers : ℕ := 256

namespace Heap

variable {h : Heap} {r s : Ref} {o : Obj}

theorem get?_cons (c : HeapCell) (h : Heap) (r : Ref) :
    Heap.get? (c :: h) r = if c.ref = r then some c.obj else Heap.get? h r := by
  unfold Heap.get?
  by_cases hc : c.ref = r <;> simp [hc]

theorem set_cons (c : HeapCell) (h : Heap) (r : Ref) (o : Obj) :
    Heap.set (c :: h) r o = (if c.ref = r then { c with obj := o } else c) :: Heap.set h r o := by
  simp [Heap.set]

theorem get?_set_self (hr : (h.get? r).isSome) : (h.set r o).get? r = some o := by
  induction h with
  | nil => simp [Heap.get?] at hr
  | cons c h ih =>
    rw [set_cons, get?_cons]
    by_cases hc : c.ref = r
    · simp [hc]
    · rw [get?_cons, if_neg hc] at hr
      simp only [hc, ↓reduceIte]
      exact ih hr

theorem get?_set_ne (hrs : r ≠ s) : (h.set r o).get? s = h.get? s := by
  induction h with
  | nil => rfl
  | cons c h ih =>
    rw [set_cons, get?_cons, get?_cons, ih]
    by_cases hc : c.ref = r <;> simp [hc, hrs]

theorem get?_set {o' : Obj} (hr : h.get? r = some o') (s : Ref) :
    (h.set r o).get? s = if r = s then some o else h.get? s := by
  by_cases hs : r = s
  · rw [if_pos hs, ← hs]
    exact get?_set_self (Option.isSome_iff_exists.2 ⟨o', hr⟩)
  · rw [if_neg hs]
    exact get?_set_ne hs

theorem get?_of_mem {c : HeapCell} (hn : (h.map (·.ref)).Nodup) (hc : c ∈ h) :
    h.get? c.ref = some c.obj := by
  induction h with
  | nil => simp at hc
  | cons d h ih =>
    rw [List.map_cons, List.nodup_cons] at hn
    rw [get?_cons]
    rcases List.mem_cons.1 hc with rfl | hc
    · rw [if_pos rfl]
    · have hne : d.ref ≠ c.ref := fun heq => hn.1 (heq ▸ List.mem_map_of_mem hc)
      rw [if_neg hne]
      exact ih hn.2 hc

theorem exists_mem_of_get? (hr : h.get? r = some o) : ∃ c ∈ h, c.ref = r ∧ c.obj = o := by
  induction h with
  | nil => simp [Heap.get?] at hr
  | cons d h ih =>
    rw [get?_cons] at hr
    by_cases hd : d.ref = r
    · rw [if_pos hd] at hr
      exact ⟨d, List.mem_cons_self, hd, Option.some.inj hr⟩
    · rw [if_neg hd] at hr
      obtain ⟨c, hc, hcr, hco⟩ := ih hr
      exact ⟨c, List.mem_cons_of_mem _ hc, hcr, hco⟩

theorem lt_freshRef {c : HeapCell} (hc : c ∈ h) : c.ref < h.freshRef := by
  induction h with
  | nil => cases hc
  | cons d h ih =>
    rcases List.mem_cons.1 hc with rfl | hc
    · exact Nat.lt_of_lt_of_le (Nat.lt_succ_self _) (Nat.le_max_left _ _)
    · exact Nat.lt_of_lt_of_le (ih hc) (Nat.le_max_right _ _)

theorem ne_freshRef (hr : h.get? r = some o) : r ≠ h.freshRef := by
  obtain ⟨c, hc, rfl, -⟩ := exists_mem_of_get? hr
  exact Nat.ne_of_lt (lt_freshRef hc)

end Heap

end Slp
