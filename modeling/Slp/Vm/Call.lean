import Slp.Vm.Basic

/-!
# Calling a closure

`callClosure` is `call_closure`: it either pushes the frame of a new activation, or resumes the
activation that an earlier yield or callcc saved in the closure (`resumeClosure`).  Both are
entered with the callee, the message if there is one, and the arguments on top of the stack.
-/

namespace Slp

/-- `SlpCallTrace`. -/
structure CallTrace where
  call : Option Ref := none
  source : Option Ref := none
  line : ℤ := -1
  enabled : Bool := false

namespace VM

/-! ### Coroutine state -/

/-- The coroutine state of the closure at `r` replaced. -/
def setCoroutine (vm : VM) (r : Ref) (k : Option Coroutine) : VM :=
  match vm.closure? r with
  | some c => vm.setObj r (.closure { c with coroutine := k })
  | none => vm

/-- `clear_coroutine_state`. -/
def clearCoroutineState (vm : VM) (r : Ref) : VM := vm.setCoroutine r none

/-- `capture_coroutine_try_handlers`: the handlers of the frames above `rootIndex`, relative to
that frame and its first slot. -/
def captureCoroutineTryHandlers (vm : VM) (rootIndex : ℕ) (rootSlots : ℤ) : List TryHandler :=
  (vm.tryHandlers.dropWhile fun h => h.frameCount ≤ (rootIndex : ℤ)).map fun h =>
    { h with frameCount := h.frameCount - rootIndex, stackCount := h.stackCount - rootSlots }

/-- The activation of the frames from `rootIndex` on, as `OP_YIELD` and `OP_CALLCC` save it. -/
def captureCoroutine (vm : VM) (rootIndex : ℕ) (rootSlots : ℤ) (needsResult : Bool) :
    Coroutine where
  stack := vm.stack.drop rootSlots.toNat
  frames := (vm.frames.drop rootIndex).map fun f => { f with slots := f.slots - rootSlots }
  needsResult
  tryHandlers := vm.captureCoroutineTryHandlers rootIndex rootSlots

/-- The coroutine state of the closure at `r`. -/
def coroutine? (vm : VM) (r : Ref) : Option Coroutine := (vm.closure? r).bind (·.coroutine)

section Coroutine

variable (vm : VM) (r : Ref) (k : Option Coroutine)

@[simp] theorem setCoroutine_stack : (vm.setCoroutine r k).stack = vm.stack := by
  unfold setCoroutine; split <;> rfl

@[simp] theorem setCoroutine_frames : (vm.setCoroutine r k).frames = vm.frames := by
  unfold setCoroutine; split <;> rfl

@[simp] theorem setCoroutine_tryHandlers : (vm.setCoroutine r k).tryHandlers = vm.tryHandlers := by
  unfold setCoroutine; split <;> rfl

theorem setCoroutine_objects_congr (vm : VM) {vm' : VM} (h : vm'.objects = vm.objects) (r : Ref)
    (k : Option Coroutine) : (vm'.setCoroutine r k).objects = (vm.setCoroutine r k).objects := by
  unfold setCoroutine
  rw [closure?_congr r h]
  split
  · simp only [setObj, h]
  · exact h

theorem get?_of_closure? {vm : VM} {r : Ref} {c : ClosureObj} (h : vm.closure? r = some c) :
    vm.objects.get? r = some (.closure c) := by
  unfold closure? at h
  split at h
  · rename_i c' hc'
    rw [hc', Option.some.inj h]
  · cases h

theorem closure?_of_get? {vm : VM} {r : Ref} {c : ClosureObj}
    (h : vm.objects.get? r = some (.closure c)) : vm.closure? r = some c := by
  simp only [closure?, h]

/-- The closure gets the new state. -/
theorem closure?_setCoroutine {vm : VM} {r : Ref} {c : ClosureObj} (h : vm.closure? r = some c) :
    (vm.setCoroutine r k).closure? r = some { c with coroutine := k } := by
  simp only [setCoroutine, h, setObj]
  exact closure?_of_get? (Heap.get?_set_self (by rw [get?_of_closure? h]; rfl))

theorem coroutine?_setCoroutine {vm : VM} {r : Ref} {k k' : Option Coroutine}
    (h : (vm.setCoroutine r k).coroutine? r = k') : k' = k ∨ k' = none := by
  cases hc : vm.closure? r with
  | none =>
    rw [setCoroutine, hc] at h
    rw [← h, coroutine?, hc]
    exact .inr rfl
  | some c =>
    rw [coroutine?, closure?_setCoroutine k hc] at h
    exact .inl h.symm

end Coroutine

/-! ### Arguments -/

/-- The arguments of a call, in order: the `argCount` slots from `argStart` on. -/
def arguments (vm : VM) (argStart : ℤ) (argCount : ℕ) : List Value :=
  (List.range argCount).map fun i => vm.slot (argStart + i)

/-- The key-value arguments. -/
def namedArguments (vm : VM) (args : List Value) : List Value :=
  args.filter fun v => (vm.keyValue? v).isSome

/-- The other arguments. -/
def positionalArguments (vm : VM) (args : List Value) : List Value :=
  args.filter fun v => (vm.keyValue? v).isNone

/-- Whether a name starts like a variable. -/
def isAddressable (key : Bytes) : Bool :=
  match key with
  | c :: _ => c == 36 || c == 64 || c == 37
  | [] => false

/-- Whether some named argument has a string key that no variable can have: the call is then
abandoned with the warning "unreachable named parameter". -/
def hasUnreachableName (vm : VM) (named : List Value) : Bool :=
  named.any fun v =>
    match vm.keyValue? v with
    | some (key, _) => match vm.string? key with
      | some name => !isAddressable name
      | none => false
    | none => false

/-- The loop that stores the named arguments in the local scope at `r`; a key that is not a
string stops it with an error. -/
def storeNamed (fmt : Printf) (local? : Option Ref) : VM → List Value → Outcome
  | vm, [] => .ok vm
  | vm, v :: named =>
    match vm.keyValue? v with
    | none => storeNamed fmt local? vm named
    | some (key, value) =>
      if (vm.string? key).isNone then .error "Named argument requires a variable name." vm
      else
        match local? with
        | some r => match vm.objects.get? r with
          | some (.hash t) =>
            storeNamed fmt local? (vm.setObj r (.hash (t.set fmt vm.objects key value))) named
          | _ => storeNamed fmt local? vm named
        | none => storeNamed fmt local? vm named

/-! ### Resuming -/

/-- A saved frame moved to the base `slots`. -/
def restoreFrame (slots : ℤ) (f : CallFrame) : CallFrame := { f with slots := f.slots + slots }

/-- A saved handler moved to the base `slots` and above the frame `restoredBase`. -/
def restoreHandler (restoredBase : ℕ) (slots : ℤ) (h : TryHandler) : TryHandler :=
  { h with frameCount := h.frameCount + restoredBase, stackCount := h.stackCount + slots }

/-- The fields of a frame that describe the call. -/
def setTrace (trace : Option CallTrace) (f : CallFrame) : CallFrame :=
  match trace with
  | some t =>
    { f with
      traceCall := t.call
      traceSource := t.source
      traceLine := t.line
      traceEnabled := t.enabled }
  | none => f

/-- The saved stack, frames and handlers copied back, and the state of the closure cleared. -/
def restoreCoroutine (vm : VM) (r : Ref) (k : Coroutine) (slots : ℤ) : VM :=
  clearCoroutineState
    { vm with
      stack := vm.stack ++ k.stack
      frames := vm.frames ++ k.frames.map (restoreFrame slots)
      tryHandlers := vm.tryHandlers ++ k.tryHandlers.map (restoreHandler vm.frames.length slots) } r

section Restore

variable (vm : VM) (r : Ref) (k : Coroutine) (slots : ℤ)

@[simp] theorem restoreCoroutine_stack :
    (vm.restoreCoroutine r k slots).stack = vm.stack ++ k.stack := setCoroutine_stack ..

@[simp] theorem restoreCoroutine_frames :
    (vm.restoreCoroutine r k slots).frames = vm.frames ++ k.frames.map (restoreFrame slots) :=
  setCoroutine_frames ..

@[simp] theorem restoreCoroutine_tryHandlers :
    (vm.restoreCoroutine r k slots).tryHandlers =
      vm.tryHandlers ++ k.tryHandlers.map (restoreHandler vm.frames.length slots) :=
  setCoroutine_tryHandlers ..

@[simp] theorem restoreCoroutine_objects :
    (vm.restoreCoroutine r k slots).objects = (vm.clearCoroutineState r).objects := by
  unfold restoreCoroutine clearCoroutineState
  refine setCoroutine_objects_congr vm ?_ r none
  rfl

end Restore

/-- The part of `call_closure` that resumes the activation `k` saved in the closure at `r`. -/
def resumeClosure (sizeof : ObjType → ℕ) (fmt : Printf) (vm : VM) (r : Ref) (k : Coroutine)
    (slots : ℤ) (hasMessage : Bool) (message : Value) (positional named : List Value)
    (trace : Option CallTrace) : Outcome :=
  let plain := positional.map vm.objects.dereferenceValue
  let (vm, resumedArgs) := vm.alloc sizeof (.array (plain.foldl ArrayObj.push {}))
  let vm := vm.setTop slots
  let resumedResult := if hasMessage then message else plain.headD .null
  if vm.stack.length + k.stack.length > stackMax then .error "Stack overflow." vm
  else if vm.frames.length + k.frames.length > maxFrames then .error "Stack overflow." vm
  else if vm.tryHandlers.length + k.tryHandlers.length > maxHandlers then
    .error "Too many active exception handlers." vm
  else
    let rootIndex := vm.frames.length
    let vm := vm.restoreCoroutine r k slots
    let vm := { vm with frames := vm.frames.modify rootIndex (setTrace trace) }
    let vm := vm.setSlot (slots + 1) message
    let vm := vm.setSlots (slots + 2) (positional.take 9)
    let vm := vm.setSlot (slots + 11) (.obj resumedArgs)
    let scope := (vm.frames[rootIndex]?).bind fun root => (vm.currentLocalScope? root).map (·.1)
    match vm.storeNamed fmt scope named with
    | .error message vm => .error message vm
    | .ok vm => .ok (if k.needsResult then vm.push resumedResult else vm)

/-! ### Entering -/

/-- The bytes of `$this`. -/
def thisName : Bytes := ascii "$this"

/-- `ensure_closure_scope`. -/
def ensureClosureScope (sizeof : ObjType → ℕ) (fmt : Printf) (vm : VM) (r : Ref)
    (c : ClosureObj) : VM × Option Ref :=
  match c.scope with
  | some scope => (vm, some scope)
  | none =>
    let (vm, scope) := vm.alloc sizeof (.hash {})
    let vm := vm.setObj r (.closure { c with scope := some scope })
    match Intern.internString (sizeof .string) vm thisName with
    | some (vm, name) =>
      (vm.setObj scope (.hash (({} : HashObj).set fmt vm.objects (.obj name) (.obj r))), some scope)
    | none => (vm, some scope)

/-- The scopes of a new activation: inline code shares those of the current frame. -/
def activationScopes (sizeof : ObjType → ℕ) (fmt : Printf) (vm : VM) (r : Ref) (c : ClosureObj) :
    VM × Option Ref × Option Ref :=
  match c.isInline, vm.currentFrame? with
  | true, some f => (vm, f.localScopes, f.closureScope)
  | _, _ =>
    let (vm, scopes) := vm.alloc sizeof (.array {})
    let (vm, hash) := vm.alloc sizeof (.hash {})
    let vm := vm.setObj scopes (.array (({} : ArrayObj).push (.obj hash)))
    let (vm, scope) := ensureClosureScope sizeof fmt vm r c
    (vm, some scopes, scope)

/-- The part of `call_closure` that pushes the frame of a new activation. -/
def enterClosure (sizeof : ObjType → ℕ) (fmt : Printf) (vm : VM) (r : Ref) (c : ClosureObj)
    (slots : ℤ) (message : Value) (positional named : List Value) (trace : Option CallTrace) :
    Outcome :=
  if slots + 12 > stackMax then .error "Stack overflow." vm
  else
    let plain := positional.map vm.objects.dereferenceValue
    let (vm, args) := vm.alloc sizeof (.array (plain.foldl ArrayObj.push {}))
    let (vm, localScopes, closureScope) := activationScopes sizeof fmt vm r c
    let vm := (vm.setTop (slots + 1)).push message
    let vm := ((List.range 9).map fun i => positional.getD i .null).foldl push vm
    let vm := vm.push (.obj args)
    let tainted := !c.isInline && (positional.any vm.objects.isTainted ||
      named.any fun v => match vm.keyValue? v with
        | some (_, value) => vm.objects.isTainted value
        | none => false)
    let frame : CallFrame :=
      setTrace trace { closure := r, slots, localScopes, closureScope, taintedArguments := tainted }
    let vm := { vm with frames := vm.frames ++ [frame] }
    vm.storeNamed fmt ((vm.currentLocalScope? frame).map (·.1)) named

/-- The number of slots a call takes besides the callee. -/
def totalArgs (argCount : ℕ) (hasMessage : Bool) : ℕ := if hasMessage then argCount + 1 else argCount

/-- The callee's slot: `vm->stack_top - total_args - 1`. -/
def callBase (vm : VM) (argCount : ℕ) (hasMessage : Bool) : ℤ :=
  vm.top - totalArgs argCount hasMessage - 1

/-- The message of a call: the one given, else the name the closure is called by. -/
def callMessage (vm : VM) (c : ClosureObj) (argCount : ℕ) (hasMessage : Bool) : Value :=
  if hasMessage then vm.slot (vm.callBase argCount hasMessage + 1)
  else match c.callName with
    | some name => .obj name
    | none => .null

/-- The arguments of a call without the message. -/
def callArguments (vm : VM) (argCount : ℕ) (hasMessage : Bool) : List Value :=
  vm.arguments (vm.callBase argCount hasMessage + 1 + if hasMessage then 1 else 0) argCount

/-- `call_closure` on the closure `c` at `r`. -/
def callClosure (sizeof : ObjType → ℕ) (fmt : Printf) (vm : VM) (r : Ref) (c : ClosureObj)
    (argCount : ℕ) (hasMessage : Bool) (trace : Option CallTrace) : Outcome :=
  if vm.frames.length ≥ maxFrames then .error "Stack overflow." vm
  else
    let slots := vm.callBase argCount hasMessage
    let message := vm.callMessage c argCount hasMessage
    let args := vm.callArguments argCount hasMessage
    let positional := vm.positionalArguments args
    let named := vm.namedArguments args
    if vm.hasUnreachableName named then .ok ((vm.setTop slots).push .null)
    else
      match c.coroutine with
      | some k =>
        resumeClosure sizeof fmt vm r k slots hasMessage message positional named trace
      | none => enterClosure sizeof fmt vm r c slots message positional named trace

/-! ### Storing named arguments -/

/-- The string or the pair at an address. -/
def dataAt (h : Heap) (r : Ref) : Option Obj :=
  match h.get? r with
  | some (.string s) => some (.string s)
  | some (.keyValue k v) => some (.keyValue k v)
  | _ => none

/-- Two heaps with the same strings and pairs. -/
def SameData (h h' : Heap) : Prop := ∀ r, dataAt h' r = dataAt h r

section SameData

variable {vm vm' : VM}

theorem keyValue?_eq_dataAt (vm : VM) (r : Ref) :
    vm.keyValue? (.obj r) = match dataAt vm.objects r with
      | some (.keyValue k v) => some (k, v)
      | _ => none := by
  simp only [keyValue?, dataAt]
  cases vm.objects.get? r with
  | none => rfl
  | some o => cases o <;> rfl

theorem string?_eq_dataAt (vm : VM) (r : Ref) :
    vm.string? (.obj r) = match dataAt vm.objects r with
      | some (.string s) => some s.chars
      | _ => none := by
  simp only [string?, Heap.string?, dataAt]
  cases vm.objects.get? r with
  | none => rfl
  | some o => cases o <;> rfl

theorem SameData.keyValue?_eq (h : SameData vm.objects vm'.objects) (v : Value) :
    vm'.keyValue? v = vm.keyValue? v := by
  cases v with
  | obj r => rw [keyValue?_eq_dataAt, keyValue?_eq_dataAt, h]
  | _ => rfl

theorem SameData.string?_eq (h : SameData vm.objects vm'.objects) (v : Value) :
    vm'.string? v = vm.string? v := by
  cases v with
  | obj r => rw [string?_eq_dataAt, string?_eq_dataAt, h]
  | _ => rfl

theorem SameData.trans {h h' h'' : Heap} (hh : SameData h h') (hh' : SameData h' h'') :
    SameData h h'' := fun r => (hh' r).trans (hh r)

/-- A new object that is neither a string nor a pair. -/
theorem sameData_alloc (vm : VM) (sizeof : ObjType → ℕ) (o : Obj) (hstring : ∀ s, o ≠ .string s)
    (hpair : ∀ key value, o ≠ .keyValue key value) :
    SameData vm.objects (vm.alloc sizeof o).1.objects := by
  intro r
  by_cases hr : vm.objects.freshRef = r
  · have hnone : vm.objects.get? r = none := by
      cases hg : vm.objects.get? r with
      | none => rfl
      | some o => exact absurd hr.symm (Heap.ne_freshRef hg)
    simp only [dataAt, alloc, Heap.get?_cons, if_pos hr, hnone]
    cases o with
    | string s => exact absurd rfl (hstring s)
    | keyValue key value => exact absurd rfl (hpair key value)
    | _ => rfl
  · simp only [dataAt, alloc, Heap.get?_cons, if_neg hr]

theorem sameData_setCoroutine (vm : VM) (r : Ref) (k : Option Coroutine) :
    SameData vm.objects (vm.setCoroutine r k).objects := by
  intro s
  unfold setCoroutine
  split
  · rename_i c hc
    by_cases hrs : r = s
    · subst hrs
      have hget := get?_of_closure? hc
      simp only [dataAt, setObj, hget, Heap.get?_set_self (Option.isSome_iff_exists.2 ⟨_, hget⟩)]
    · simp only [dataAt, setObj, Heap.get?_set_ne hrs]
  · rfl

end SameData

/-- Two heaps with the same objects, up to the contents of hashes. -/
def SameButHashes (h h' : Heap) : Prop :=
  ∀ r, h'.get? r = h.get? r ∨
    ∃ t t', h.get? r = some (.hash t) ∧ h'.get? r = some (.hash t')

namespace SameButHashes

variable {h h' h'' : Heap}

theorem refl (h : Heap) : SameButHashes h h := fun _ => .inl rfl

theorem trans (hh : SameButHashes h h') (hh' : SameButHashes h' h'') : SameButHashes h h'' := by
  intro r
  rcases hh r with h₁ | ⟨t, t', h₁, h₁'⟩ <;> rcases hh' r with h₂ | ⟨u, u', h₂, h₂'⟩
  · exact .inl (h₂.trans h₁)
  · exact .inr ⟨u, u', h₁ ▸ h₂, h₂'⟩
  · exact .inr ⟨t, t', h₁, h₂.trans h₁'⟩
  · exact .inr ⟨t, u', h₁, h₂'⟩

theorem set_hash {r : Ref} {t t' : HashObj} (hr : h.get? r = some (.hash t)) :
    SameButHashes h (h.set r (.hash t')) := by
  intro s
  by_cases hs : r = s
  · subst hs
    exact .inr ⟨t, t', hr, Heap.get?_set_self (by rw [hr]; rfl)⟩
  · exact .inl (Heap.get?_set_ne hs)

/-- An object that is not a hash is the same in both heaps. -/
theorem get?_eq (hh : SameButHashes h h') {r : Ref} {o : Obj} (ho : ∀ t, o ≠ .hash t) :
    h'.get? r = some o ↔ h.get? r = some o := by
  rcases hh r with heq | ⟨t, t', h₁, h₂⟩
  · rw [heq]
  · rw [h₁, h₂]
    constructor
    · intro h; exact absurd (Option.some.inj h).symm (ho _)
    · intro h; exact absurd (Option.some.inj h).symm (ho _)

variable {vm vm' : VM}

theorem sameData (hh : SameButHashes h h') : SameData h h' := by
  intro r
  rcases hh r with heq | ⟨t, t', h₁, h₂⟩
  · simp only [dataAt, heq]
  · simp only [dataAt, h₁, h₂]

theorem closure?_eq (hh : SameButHashes vm.objects vm'.objects) (r : Ref) :
    vm'.closure? r = vm.closure? r := by
  unfold closure?
  rcases hh r with heq | ⟨t, t', h₁, h₂⟩
  · rw [heq]
  · rw [h₁, h₂]

end SameButHashes

/-- Every key of the named arguments is a string. -/
def NamesAreStrings (vm : VM) (named : List Value) : Prop :=
  ∀ v ∈ named, ∀ key value, vm.keyValue? v = some (key, value) → (vm.string? key).isSome

theorem SameData.namesAreStrings_iff {vm vm' : VM} (h : SameData vm.objects vm'.objects)
    (named : List Value) : vm'.NamesAreStrings named ↔ vm.NamesAreStrings named := by
  simp only [NamesAreStrings, h.keyValue?_eq, h.string?_eq]

/-- Storing named arguments changes hashes only, and fails exactly when some key is not a
string. -/
theorem storeNamed_spec (fmt : Printf) (local? : Option Ref) (vm : VM) (named : List Value) :
    ∃ h', SameButHashes vm.objects h' ∧
      (vm.NamesAreStrings named →
        storeNamed fmt local? vm named = .ok { vm with objects := h' }) ∧
      (¬ vm.NamesAreStrings named → storeNamed fmt local? vm named =
        .error "Named argument requires a variable name." { vm with objects := h' }) := by
  induction named generalizing vm with
  | nil => exact ⟨vm.objects, .refl _, fun _ => rfl, fun h => absurd (by simp [NamesAreStrings]) h⟩
  | cons v named ih =>
    cases hv : vm.keyValue? v with
    | none =>
      obtain ⟨h', hh, hok, herr⟩ := ih vm
      have hiff : vm.NamesAreStrings (v :: named) ↔ vm.NamesAreStrings named := by
        simp [NamesAreStrings, hv]
      rw [hiff]
      refine ⟨h', hh, ?_, ?_⟩ <;> simpa only [storeNamed, hv]
    | some kv =>
      obtain ⟨key, value⟩ := kv
      cases hs : vm.string? key with
      | none =>
        refine ⟨vm.objects, .refl _, fun h => ?_, fun _ => ?_⟩
        · have := h v List.mem_cons_self key value hv
          rw [hs] at this
          cases this
        · simp only [storeNamed, hv, hs, Option.isNone_none, ↓reduceIte]
      | some name =>
        -- the tail is stored into a machine that has the same strings and pairs
        have step : ∀ vm' : VM, SameButHashes vm.objects vm'.objects →
            vm' = { vm with objects := vm'.objects } →
            storeNamed fmt local? vm (v :: named) = storeNamed fmt local? vm' named →
            ∃ h', SameButHashes vm.objects h' ∧
              (vm.NamesAreStrings (v :: named) →
                storeNamed fmt local? vm (v :: named) = .ok { vm with objects := h' }) ∧
              (¬ vm.NamesAreStrings (v :: named) → storeNamed fmt local? vm (v :: named) =
                .error "Named argument requires a variable name." { vm with objects := h' }) := by
          intro vm' hsame hvm' heq
          obtain ⟨h', hh, hok, herr⟩ := ih vm'
          have hiff : vm'.NamesAreStrings named ↔ vm.NamesAreStrings (v :: named) := by
            rw [hsame.sameData.namesAreStrings_iff]
            simp only [NamesAreStrings, List.forall_mem_cons, hv, Option.some.injEq,
              Prod.mk.injEq, and_imp]
            refine ⟨fun h => ⟨?_, h⟩, fun h => h.2⟩
            rintro _ _ rfl rfl
            rw [hs]; rfl
          rw [heq, ← hiff]
          rw [hvm'] at hok herr
          exact ⟨h', hsame.trans hh, by rw [hvm']; exact hok, by rw [hvm']; exact herr⟩
        have hcond : (vm.string? key).isNone = false := by rw [hs]; rfl
        cases local? with
        | none => exact step vm (.refl _) rfl (by simp only [storeNamed, hv, hcond]; rfl)
        | some r =>
          cases hr : vm.objects.get? r with
          | none => exact step vm (.refl _) rfl (by simp only [storeNamed, hv, hcond, hr]; rfl)
          | some o =>
            cases o
            case hash t =>
              exact step (vm.setObj r (.hash (t.set fmt vm.objects key value)))
                (.set_hash hr) rfl (by simp only [storeNamed, hv, hcond, hr]; rfl)
            all_goals exact step vm (.refl _) rfl (by simp only [storeNamed, hv, hcond, hr]; rfl)

end VM

end Slp
