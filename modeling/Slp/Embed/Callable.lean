import Slp.Vm.CallValue

/-!
# Callable handles

A host keeps a closure for later with `slp_callable_acquire`.  The handle is a block of the allocator
that is linked on `vm->callables`; the collector marks the closures of the list
(`slp_embed_mark_roots`), `slp_callable_release` unlinks a block and frees it, and
`slp_embed_release_all` frees them all.

The blocks that are allocated are listed with their addresses.  A function that reads a block that is
not, or whose loop does not end, has no result.  The closures that the collector finds on the list
are put into `VM.callables`, whose elements are roots.
-/

namespace Slp

/-! ### The value of a callable -/

/-- The loop of `embedding_value`, over at most `fuel` cells and wrappers. -/
def Heap.embeddingLoop (h : Heap) : (fuel : ℕ) → Value → Value
  | 0, v => v
  | fuel + 1, .obj r =>
    match h.get? r with
    | some (.scalarCell v _) => embeddingLoop h fuel v
    | some (.tainted v) => embeddingLoop h fuel v
    | _ => .obj r
  | _ + 1, v => v

/-- `embedding_value`. -/
def Heap.embeddingValue (h : Heap) (v : Value) : Value := h.embeddingLoop h.length v

namespace Embed

/-- `SlpCallable`; `vm` says that the pointer to the machine is not null. -/
structure Callable where
  vm : Bool
  value : Value
  next : Option ℕ
  deriving DecidableEq, Repr

/-- A machine with the handles of its host; `callables` is `vm->callables`. -/
structure Embedding where
  machine : VM
  blocks : List (ℕ × Callable)
  callables : Option ℕ
  deriving DecidableEq, Repr

namespace Embedding

/-- The block at an address. -/
def callable? (E : Embedding) (a : ℕ) : Option Callable := E.blocks.lookup a

/-! ### Acquiring -/

/-- The end of `slp_callable_acquire`: a block is linked in front, if there is one. -/
def link (E : Embedding) (value : Value) : (block : Option ℕ) → Embedding × Option ℕ
  | none => (E, none)
  | some a =>
    ({ E with
      blocks := (a, ⟨true, value, E.callables⟩) :: E.blocks
      callables := some a }, some a)

/-- `slp_callable_acquire`; `closureFits` says that there is memory for a closure, and `block` is the
block that the allocator gives.  Without a handle the result is `SLP_RUNTIME_ERROR`. -/
def acquire (sizeof : ObjType → ℕ) (E : Embedding) (value : Value) (closureFits : Bool)
    (block : Option ℕ) : Option (Embedding × Option ℕ) :=
  match E.machine.objects.embeddingValue value with
  | .obj r => do
    match ← E.machine.objects.get? r with
    | .closure _ | .native _ => return E.link (.obj r) block
    | .function f =>
      if closureFits then
        let (machine, closure) := E.machine.newClosure sizeof r f
        return { E with machine }.link (.obj closure) block
      else return (E, none)
    | _ => return (E, none)
  | _ => return (E, none)

/-- The closure that is acquired. -/
def target (E : Embedding) (value : Value) : Value :=
  match E.machine.objects.embeddingValue value with
  | .obj r => match E.machine.objects.get? r with
    | some (.function _) => .obj E.machine.objects.freshRef
    | _ => .obj r
  | v => v

/-! ### Releasing -/

/-- What a link points to: `vm->callables`, or the `next` of a block. -/
def read (E : Embedding) : (link : Option ℕ) → Option (Option ℕ)
  | none => some E.callables
  | some a => (E.callable? a).map (·.next)

/-- A link assigned. -/
def write (E : Embedding) (next : Option ℕ) : (link : Option ℕ) → Embedding
  | none => { E with callables := next }
  | some a =>
    { E with blocks := E.blocks.map fun p => if p.1 = a then (p.1, { p.2 with next }) else p }

/-- The loop of `slp_callable_release`: the first link that is null or points to the block. -/
def seek (E : Embedding) (callable : ℕ) : (fuel : ℕ) → (link : Option ℕ) → Option (Option ℕ)
  | 0, _ => none
  | fuel + 1, link => do
    match ← E.read link with
    | none => return link
    | some a => if a = callable then return link else E.seek callable fuel (some a)

/-- `SLP_FREE` of a block. -/
def free (E : Embedding) (a : ℕ) : Embedding :=
  { E with blocks := E.blocks.filter fun p => p.1 ≠ a }

/-- `slp_callable_release`. -/
def release (E : Embedding) : (callable : Option ℕ) → Option Embedding
  | none => some E
  | some a => do
    let c ← E.callable? a
    if c.vm then do
      let link ← E.seek a (E.blocks.length + 1) none
      if (← E.read link) = some a then return (E.write c.next link).free a else return E
    else return E

/-- The loop of `slp_embed_release_all`. -/
def releaseLoop : (fuel : ℕ) → Embedding → (callable : Option ℕ) → Option Embedding
  | _, E, none => some E
  | 0, _, some _ => none
  | fuel + 1, E, some a => do releaseLoop fuel (E.free a) (← E.callable? a).next

/-- `slp_embed_release_all`. -/
def releaseAll (E : Embedding) : Option Embedding :=
  releaseLoop E.blocks.length { E with callables := none } E.callables

/-! ### Calling -/

/-- `slp_vm_call_value` up to `slp_vm_call`, with a place for the result; none if it returns
`SLP_RUNTIME_ERROR` before. -/
def callValue (sizeof : ObjType → ℕ) (vm : VM) (callable : Value) (arguments : List Value) :
    Option VM :=
  if 255 < arguments.length then none
  else do
    let (vm, callee) ← vm.callTarget? sizeof callable
    if stackMax - vm.top < arguments.length + 1 then none
    else return Nested.pushCall vm callee arguments

/-- `slp_callable_call`, up to the call. -/
def call (sizeof : ObjType → ℕ) (E : Embedding) (callable : Option ℕ) (arguments : List Value) :
    Option (Option Embedding) :=
  match callable with
  | none => some none
  | some a => do
    let c ← E.callable? a
    if c.vm then
      return (callValue sizeof E.machine c.value arguments).map fun machine => { E with machine }
    else return none

/-! ### Collecting -/

/-- The values that `slp_embed_mark_roots` marks. -/
def markedValues (E : Embedding) : (fuel : ℕ) → (callable : Option ℕ) → Option (List Value)
  | 0, _ => none
  | _ + 1, none => some []
  | fuel + 1, some a => do
    let c ← E.callable? a
    return c.value :: (← E.markedValues fuel c.next)

/-- The machine as the collector sees it. -/
def marking (E : Embedding) : Option VM :=
  (E.markedValues (E.blocks.length + 1) E.callables).map fun callables =>
    { E.machine with callables }

/-- `slp_gc_collect`. -/
def collect (sizeof : ObjType → ℕ) (E : Embedding) : Option Embedding := do
  let machine ← Gc.collect sizeof (← E.marking)
  return { E with machine }

end Embedding

end Embed

end Slp
