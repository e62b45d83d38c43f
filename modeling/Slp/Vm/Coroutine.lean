import Slp.Vm.Call

/-!
# Suspending and resuming an activation

`yield` is `OP_YIELD`: it saves the frames from the innermost frame that is not inline code on,
with their operands and handlers, in that frame's closure.  A later call of the closure moves them
to a new base (`resumeClosure`).

## Main definitions

* `VM.yield` : the opcode.
* `moveFrame`, `moveHandler` : a frame and a handler as they should be after the move.
* `Resumed` : what a resumed activation should look like.
* `RoundTrip` : what a resuming call should do, whether it succeeds or not.
-/

namespace Slp

namespace VM

/-- `OP_YIELD`, up to the test for the end of the run loop.  Saving an activation whose operand
stack has sunk below its first slot fails to allocate. -/
def yield (vm : VM) : Outcome :=
  let (result, vm) := vm.pop
  let rootIndex := vm.rootIndex
  match vm.frames[rootIndex]? with
  | none => .ok vm
  | some root =>
    let vm := vm.clearCoroutineState root.closure
    if vm.top < root.slots then .error "Out of memory." vm
    else
      let vm := vm.setCoroutine root.closure
        (some (vm.captureCoroutine rootIndex root.slots false))
      let vm := { vm with frames := vm.frames.take rootIndex }
      let vm := vm.trimTryHandlers rootIndex
      .ok ((vm.setTop root.slots).push result)

/-! ### What a resumption should do -/

/-- A frame moved from the base `b₀` to the base `b₁`, with all stack positions in it. -/
def moveFrame (b₀ b₁ : ℤ) (f : CallFrame) : CallFrame :=
  { f with
    slots := f.slots - b₀ + b₁
    foreachIteratorOffset :=
      if f.foreachIteratorOffset < 0 then f.foreachIteratorOffset
      else f.foreachIteratorOffset - b₀ + b₁ }

/-- A handler moved from above frame `n₀` and the base `b₀` to above frame `n₁` and the base
`b₁`. -/
def moveHandler (n₀ n₁ : ℕ) (b₀ b₁ : ℤ) (h : TryHandler) : TryHandler :=
  { h with frameCount := h.frameCount - n₀ + n₁, stackCount := h.stackCount - b₀ + b₁ }

/-- The value of slot `i` of the resumed closure that held `v`: `$0`, the supplied ones of `$1` to
`$9`, and `@_` take the values of the call. -/
def suppliedSlot (message : Value) (positional : List Value) (args : Ref) (i : ℕ) (v : Value) :
    Value :=
  if i = 1 then message
  else if i = 11 then .obj args
  else if 2 ≤ i ∧ i < 11 then positional.getD (i - 2) v
  else v

/-- The activation that was suspended in `vm₀`, with the frame `root` at its bottom, goes on in
`vm₂` after a call in `vm₁` whose callee is in slot `slots`. -/
structure Resumed (vm₀ : VM) (root : CallFrame) (vm₁ : VM) (slots : ℤ) (message : Value)
    (positional : List Value) (trace : Option CallTrace) (vm₂ : VM) : Prop where
  frames : vm₂.frames = vm₁.frames ++
    ((vm₀.frames.drop vm₀.rootIndex).map (moveFrame root.slots slots)).modify 0 (setTrace trace)
  tryHandlers : vm₂.tryHandlers = vm₁.tryHandlers ++
    (vm₀.tryHandlers.dropWhile fun h => h.frameCount ≤ (vm₀.rootIndex : ℤ)).map
      (moveHandler vm₀.rootIndex vm₁.frames.length root.slots slots)
  /-- The slots from the first slot of `root` on, without the value yielded. -/
  stack : ∃ args a, vm₂.objects.get? args = some (.array a) ∧
    a.live = positional.map vm₁.objects.dereferenceValue ∧
    vm₂.stack = vm₁.stack.take slots.toNat ++
      (vm₀.stack.dropLast.drop root.slots.toNat).mapIdx (suppliedSlot message positional args)

/-- What a call of the closure suspended in `vm₀` should do in `vm₁`: go on with the activation, or
fail and leave it suspended.  A call with an unreachable named parameter fails with a warning
only. -/
def RoundTrip (sizeof : ObjType → ℕ) (fmt : Printf) (vm₀ : VM) (root : CallFrame) (vm₁ : VM)
    (c : ClosureObj) (argCount : ℕ) (hasMessage : Bool) (trace : Option CallTrace) : Prop :=
  let args := vm₁.callArguments argCount hasMessage
  match vm₁.callClosure sizeof fmt root.closure c argCount hasMessage trace with
  | .ok vm₂ =>
    if vm₁.hasUnreachableName (vm₁.namedArguments args) then
      vm₂.coroutine? root.closure = c.coroutine
    else
      Resumed vm₀ root vm₁ (vm₁.callBase argCount hasMessage)
        (vm₁.callMessage c argCount hasMessage) (vm₁.positionalArguments args) trace vm₂
  | .error _ vm₂ => vm₂.coroutine? root.closure = c.coroutine

/-- There is no room for the slots, the frames or the handlers of `k` at the base `slots`. -/
def NoRoom (vm : VM) (k : Coroutine) (slots : ℤ) : Prop :=
  stackMax < slots.toNat + k.stack.length ∨
  maxFrames < vm.frames.length + k.frames.length ∨
  maxHandlers < vm.tryHandlers.length + k.tryHandlers.length

/-- The call is refused before anything is restored. -/
def Refused (vm₁ : VM) (k : Coroutine) (argCount : ℕ) (hasMessage : Bool) : Prop :=
  maxFrames ≤ vm₁.frames.length ∨
  vm₁.hasUnreachableName (vm₁.namedArguments (vm₁.callArguments argCount hasMessage)) = true ∨
  vm₁.NoRoom k (vm₁.callBase argCount hasMessage)

/-! ### What a resumption does -/

section Resume

variable {sizeof : ObjType → ℕ} {fmt : Printf} {vm₀ vm₁ vm : VM} {root : CallFrame}

/-- What a yield leaves in the closure it suspends. -/
theorem coroutine?_yield {vm' : VM} {k : Coroutine} (hroot : vm.frames[vm.rootIndex]? = some root)
    (hy : vm.yield = .ok vm') (hk : vm'.coroutine? root.closure = some k) :
    k = ⟨vm.stack.dropLast.drop root.slots.toNat,
      (vm.frames.drop vm.rootIndex).map fun f => { f with slots := f.slots - root.slots }, false,
      (vm.tryHandlers.dropWhile fun h => h.frameCount ≤ (vm.rootIndex : ℤ)).map fun h =>
        { h with frameCount := h.frameCount - vm.rootIndex,
                 stackCount := h.stackCount - root.slots }⟩ := by
  have hstack : vm.pop.2.stack = vm.stack.dropLast := by
    unfold pop
    cases hl : vm.stack.getLast? with
    | none => rw [List.getLast?_eq_none_iff.1 hl]; rfl
    | some v => rfl
  have hri : vm.pop.2.rootIndex = vm.rootIndex := rootIndex_congr (by simp) (by simp)
  simp only [yield, hri, pop_frames, hroot] at hy
  split_ifs at hy
  cases hy
  simp only [coroutine?] at hk
  rw [push_closure?, setTop_closure?] at hk
  obtain h | h := coroutine?_setCoroutine hk
  · cases h
    simp only [captureCoroutine, captureCoroutineTryHandlers, clearCoroutineState,
      setCoroutine_stack, setCoroutine_frames, setCoroutine_tryHandlers, hstack, pop_frames,
      pop_tryHandlers]
  · cases h

theorem modify_append_right {α : Type*} (l l' : List α) (i : ℕ) (f : α → α) :
    (l ++ l').modify (l.length + i) f = l ++ l'.modify i f := by
  induction l with
  | nil => simp
  | cons a l ih =>
    have hlen : (a :: l).length + i = (l.length + i) + 1 := by rw [List.length_cons]; omega
    rw [hlen, List.cons_append, List.modify_succ_cons, ih, List.cons_append]

/-- The slots of the resumed closure. -/
theorem setFrom_eq_mapIdx (S : List Value) (message : Value) (positional : List Value)
    (args : Ref) :
    (setFrom (S.set 1 message) 2 (positional.take 9)).set 11 (.obj args) =
      S.mapIdx (suppliedSlot message positional args) := by
  refine List.ext_getElem? fun i => ?_
  rw [List.getElem?_mapIdx]
  by_cases h11 : i = 11
  · subst h11
    rw [List.getElem?_set]
    simp only [length_setFrom, List.length_set]
    by_cases hl : 11 < S.length
    · simp [hl, suppliedSlot]
    · simp [hl]
  · rw [List.getElem?_set_ne (Ne.symm h11), getElem?_setFrom, List.length_set, List.length_take]
    by_cases hl : i < S.length
    · rw [List.getElem?_eq_getElem hl]
      by_cases h1 : i = 1
      · subst h1
        rw [if_neg (by omega), List.getElem?_set_self hl]
        rfl
      · rw [List.getElem?_set_ne (Ne.symm h1), List.getElem?_eq_getElem hl]
        simp only [Option.map_some, suppliedSlot, if_neg h1, if_neg h11]
        by_cases hp : 2 ≤ i ∧ i < 11
        · rw [if_pos hp]
          by_cases hpl : i - 2 < positional.length
          · rw [if_pos (by omega), List.getElem?_take_of_lt (by omega),
              List.getD_eq_getElem?_getD, List.getElem?_eq_getElem hpl]
            rfl
          · rw [if_neg (by omega), List.getD_eq_getElem?_getD,
              List.getElem?_eq_none (by omega)]
            rfl
        · rw [if_neg hp, if_neg (by omega)]
    · rw [if_neg (by omega), List.getElem?_eq_none (by rw [List.length_set]; omega),
        List.getElem?_eq_none (by omega)]
      rfl

/-- The state restored by a resumption, up to the named arguments. -/
structure Restored (vm : VM) (k : Coroutine) (slots : ℤ) (message : Value)
    (positional : List Value) (trace : Option CallTrace) (vm' : VM) : Prop where
  frames : vm'.frames = vm.frames ++ (k.frames.map (restoreFrame slots)).modify 0 (setTrace trace)
  tryHandlers : vm'.tryHandlers =
    vm.tryHandlers ++ k.tryHandlers.map (restoreHandler vm.frames.length slots)
  stack : ∃ args a, vm'.objects.get? args = some (.array a) ∧
    a.live = positional.map vm.objects.dereferenceValue ∧
    vm'.stack = vm.stack.take slots.toNat ++ k.stack.mapIdx (suppliedSlot message positional args)

/-- The resumption with its machines in order: the slots freed, the coroutine back, the trace and
the arguments in place. -/
theorem resumeClosure_eq (vm : VM) (sizeof : ObjType → ℕ) (fmt : Printf) (r : Ref) (k : Coroutine)
    (slots : ℤ) (hasMessage : Bool) (message : Value) (positional named : List Value)
    (trace : Option CallTrace) :
    resumeClosure sizeof fmt vm r k slots hasMessage message positional named trace =
      (let plain := positional.map vm.objects.dereferenceValue
      let args := vm.alloc sizeof (.array (plain.foldl ArrayObj.push {}))
      let vm₁ := args.1
      let vm₂ := (vm₁.setTop slots).restoreCoroutine r k slots
      let vm₃ : VM := { vm₂ with frames := vm₂.frames.modify vm.frames.length (setTrace trace) }
      let vm₄ := ((vm₃.setSlot (slots + 1) message).setSlots (slots + 2) (positional.take 9)).setSlot
        (slots + 11) (.obj args.2)
      let scope := (vm₄.frames[vm.frames.length]?).bind fun root =>
        (vm₄.currentLocalScope? root).map (·.1)
      if (vm₁.setTop slots).stack.length + k.stack.length > stackMax then
        .error "Stack overflow." (vm₁.setTop slots)
      else if vm.frames.length + k.frames.length > maxFrames then
        .error "Stack overflow." (vm₁.setTop slots)
      else if vm.tryHandlers.length + k.tryHandlers.length > maxHandlers then
        .error "Too many active exception handlers." (vm₁.setTop slots)
      else match vm₄.storeNamed fmt scope named with
        | .error message vm => .error message vm
        | .ok vm => .ok (if k.needsResult then
            vm.push (if hasMessage then message else plain.headD .null) else vm)) := rfl


/-- A resumption of `k`: refused for want of room with the coroutine state as it was, or done, or
given up at a named argument after the state is gone. -/
theorem resumeClosure_spec (sizeof : ObjType → ℕ) (fmt : Printf) {r : Ref} {c : ClosureObj}
    {k : Coroutine} {slots : ℤ} (hasMessage : Bool) (message : Value)
    (positional named : List Value) (trace : Option CallTrace) (hc : vm.closure? r = some c) (h0 : 0 ≤ slots)
    (htop : slots ≤ vm.top) (hk : k.needsResult = false) :
    (vm.NoRoom k slots → ∃ msg vm',
      resumeClosure sizeof fmt vm r k slots hasMessage message positional named trace =
        .error msg vm' ∧ vm'.coroutine? r = c.coroutine) ∧
    (¬ vm.NoRoom k slots → vm.NamesAreStrings named → ∃ vm',
      resumeClosure sizeof fmt vm r k slots hasMessage message positional named trace = .ok vm' ∧
        vm.Restored k slots message positional trace vm') ∧
    (¬ vm.NoRoom k slots → ¬ vm.NamesAreStrings named → ∃ msg vm',
      resumeClosure sizeof fmt vm r k slots hasMessage message positional named trace =
        .error msg vm' ∧ vm'.coroutine? r = none) := by
  have hrun := resumeClosure_eq vm sizeof fmt r k slots hasMessage message positional named trace
  dsimp only at hrun
  set plain := positional.map vm.objects.dereferenceValue with hplain
  set args : ArrayObj := plain.foldl ArrayObj.push {} with hargs
  set vm₁ := (vm.alloc sizeof (.array args)).1 with hvm₁
  set ref := (vm.alloc sizeof (.array args)).2 with href
  have hlen : (vm₁.setTop slots).stack.length = slots.toNat := by
    have := setTop_top vm₁ h0
    unfold top at this
    omega
  have hstack : (vm₁.setTop slots).stack = vm.stack.take slots.toNat := setTop_of_le vm₁ htop
  have hc₁ : vm₁.closure? r = some c :=
    closure?_of_get? (alloc_get?_of_some vm _ _ (get?_of_closure? hc))
  -- the machine with everything but the named arguments in place
  set vm₂ := ((((vm₁.setTop slots).restoreCoroutine r k slots)) : VM) with hvm₂
  set vm₃ : VM := { vm₂ with frames := vm₂.frames.modify vm.frames.length (setTrace trace) }
    with hvm₃
  set vm₄ := ((vm₃.setSlot (slots + 1) message).setSlots (slots + 2) (positional.take 9)).setSlot
    (slots + 11) (.obj ref) with hvm₄
  set scope := (vm₄.frames[vm.frames.length]?).bind fun root =>
    (vm₄.currentLocalScope? root).map (·.1) with hscope
  have hobj₂ : vm₂.objects = (vm₁.clearCoroutineState r).objects := by
    rw [hvm₂, restoreCoroutine_objects]
    exact setCoroutine_objects_congr vm₁ (setTop_objects vm₁ slots) r none
  have hdata : SameData vm.objects vm₄.objects :=
    (sameData_alloc vm sizeof (.array args) nofun nofun).trans (hobj₂ ▸ sameData_setCoroutine vm₁ r none)
  have hc₄ : vm₄.closure? r = some { c with coroutine := none } := by
    have hobj₄ : vm₄.objects = (vm₁.clearCoroutineState r).objects := hobj₂
    rw [closure?_congr r hobj₄]
    exact closure?_setCoroutine none hc₁
  rw [hrun, hlen]
  refine ⟨fun hno => ?_, fun hroom hnames => ?_, fun hroom hnames => ?_⟩
  · have hco : (vm₁.setTop slots).coroutine? r = c.coroutine := by
      rw [coroutine?, setTop_closure?, hc₁]
      rfl
    by_cases hs : slots.toNat + k.stack.length > stackMax
    · rw [if_pos hs]
      exact ⟨_, _, rfl, hco⟩
    rw [if_neg hs]
    by_cases hf : vm.frames.length + k.frames.length > maxFrames
    · rw [if_pos hf]
      exact ⟨_, _, rfl, hco⟩
    rw [if_neg hf, if_pos (hno.resolve_left hs |>.resolve_left hf)]
    exact ⟨_, _, rfl, hco⟩
  · unfold NoRoom at hroom
    rw [if_neg (by omega), if_neg (by omega), if_neg (by omega)]
    obtain ⟨h', hsame, hok, -⟩ := storeNamed_spec fmt scope vm₄ named
    rw [hok ((hdata.namesAreStrings_iff named).2 hnames), hk]
    refine ⟨_, rfl, ?_, ?_, ref, args, ?_, ?_, ?_⟩
    · change (vm₂.frames).modify vm.frames.length (setTrace trace) = _
      rw [restoreCoroutine_frames]
      exact modify_append_right vm.frames _ 0 (setTrace trace)
    · change vm₂.tryHandlers = _
      rw [restoreCoroutine_tryHandlers]
      rfl
    · have harr : vm₁.objects.get? ref = some (.array args) := alloc_get?_self vm sizeof _
      refine (hsame.get?_eq (by simp)).2 ?_
      change vm₂.objects.get? ref = _
      have hne : r ≠ ref := by
        intro heq
        rw [← heq, get?_of_closure? hc₁] at harr
        cases harr
      rw [hobj₂, clearCoroutineState, setCoroutine, hc₁]
      exact (Heap.get?_set_ne hne).trans harr
    · rw [hargs, ArrayObj.live_foldl_push (Nat.le_refl _)]
      rfl
    · change vm₄.stack = _
      have hstack₂ : vm₂.stack = vm.stack.take slots.toNat ++ k.stack := by
        rw [hvm₂, restoreCoroutine_stack, hstack]
      have hA : (vm.stack.take slots.toNat).length = slots.toNat := hstack ▸ hlen
      have h1 : (slots + 1).toNat = (vm.stack.take slots.toNat).length + 1 := by omega
      have h2 : (slots + 2).toNat = (vm.stack.take slots.toNat).length + 2 := by omega
      have h11 : (slots + 11).toNat = (vm.stack.take slots.toNat).length + 11 := by omega
      change (setFrom (vm₂.stack.set (slots + 1).toNat message) (slots + 2).toNat
        (positional.take 9)).set (slots + 11).toNat (.obj ref) = _
      rw [hstack₂, h1, h2, h11, List.set_append_right _ _ (Nat.le_add_right _ _),
        Nat.add_sub_cancel_left, setFrom_append, List.set_append_right _ _ (Nat.le_add_right _ _),
        Nat.add_sub_cancel_left, setFrom_eq_mapIdx]
  · unfold NoRoom at hroom
    rw [if_neg (by omega), if_neg (by omega), if_neg (by omega)]
    obtain ⟨h', hsame, -, herr⟩ := storeNamed_spec fmt scope vm₄ named
    rw [herr (fun h => hnames ((hdata.namesAreStrings_iff named).1 h))]
    refine ⟨_, _, rfl, ?_⟩
    rw [coroutine?, hsame.closure?_eq, hc₄]
    rfl

theorem map_foreachIteratorOffset_modify (trace : Option CallTrace) (fs : List CallFrame) :
    (fs.modify 0 (setTrace trace)).map (·.foreachIteratorOffset) =
      fs.map (·.foreachIteratorOffset) := by
  cases fs with
  | nil => rfl
  | cons f fs => cases trace <;> rfl

/-- A restored activation is the suspended one moved to its new base exactly when that base is the
old one, or no saved frame records the position of a foreach iterator. -/
theorem resumed_iff {k : Coroutine} {slots : ℤ} {message : Value} {positional : List Value}
    {trace : Option CallTrace} {vm₂ : VM} (h : vm₁.Restored k slots message positional trace vm₂)
    (hframes : k.frames = (vm₀.frames.drop vm₀.rootIndex).map fun f =>
      { f with slots := f.slots - root.slots })
    (hhandlers : k.tryHandlers =
      (vm₀.tryHandlers.dropWhile fun h => h.frameCount ≤ (vm₀.rootIndex : ℤ)).map fun h =>
        { h with frameCount := h.frameCount - vm₀.rootIndex,
                 stackCount := h.stackCount - root.slots })
    (hstack : k.stack = vm₀.stack.dropLast.drop root.slots.toNat) :
    Resumed vm₀ root vm₁ slots message positional trace vm₂ ↔
      (slots = root.slots ∨
        ∀ f ∈ vm₀.frames.drop vm₀.rootIndex, f.foreachIteratorOffset < 0) := by
  have hmap : k.frames.map (restoreFrame slots) = (vm₀.frames.drop vm₀.rootIndex).map fun f =>
      { f with slots := f.slots - root.slots + slots } := by
    rw [hframes, List.map_map]
    rfl
  constructor
  · intro hres
    have heq := List.append_cancel_left (h.frames.symm.trans hres.frames)
    have hoff := congrArg (List.map (·.foreachIteratorOffset)) heq
    rw [map_foreachIteratorOffset_modify, map_foreachIteratorOffset_modify, hmap, List.map_map,
      List.map_map, List.map_inj_left] at hoff
    by_contra hcon
    push Not at hcon
    obtain ⟨hne, f, hf, hge⟩ := hcon
    have := hoff f hf
    simp only [Function.comp_apply, moveFrame, if_neg (not_lt.2 hge)] at this
    omega
  · intro hcond
    have hmove : k.frames.map (restoreFrame slots) =
        (vm₀.frames.drop vm₀.rootIndex).map (moveFrame root.slots slots) := by
      rw [hmap, List.map_inj_left]
      intro f hf
      have hoff : f.foreachIteratorOffset = (moveFrame root.slots slots f).foreachIteratorOffset := by
        simp only [moveFrame]
        split_ifs with hlt
        · rfl
        · rcases hcond with rfl | hall
          · omega
          · exact absurd (hall f hf) hlt
      simp only [moveFrame] at hoff ⊢
      rw [← hoff]
    refine ⟨hmove ▸ h.frames, ?_, ?_⟩
    · rw [h.tryHandlers, hhandlers, List.map_map]
      rfl
    · rw [← hstack]
      exact h.stack

end Resume

/-! ### A generator that is resumed one slot higher -/

section Example

/-- The twelve slots of an activation without arguments. -/
def emptySlots (callee args : Ref) : List Value :=
  .obj callee :: (List.replicate 10 .null ++ [.obj args])

/-- A generator `3`, called as a statement of the script `1`, at the yield in the body of
`foreach $x (@array)`: its operands are the array, the iterator and the value yielded. -/
def generatorVM : VM where
  stack := emptySlots 1 5 ++ emptySlots 3 6 ++ [.obj 4, .num 1, .num 7]
  frames := [{ closure := 1, slots := 0 },
    { closure := 3, slots := 12, foreachActive := true, foreachArray := some 4, foreachIndex := 0,
      foreachIteratorOffset := 25 }]
  objects := [⟨6, false, .array {}⟩, ⟨5, false, .array {}⟩,
    ⟨4, false, .array { elements := [.num 7, .num 8], count := 2 }⟩,
    ⟨3, false, .closure { function := 2 }⟩, ⟨2, false, .function {}⟩,
    ⟨1, false, .closure { function := 0 }⟩, ⟨0, false, .function {}⟩]

/-- The frame of the generator. -/
def generatorFrame : CallFrame :=
  { closure := 3, slots := 12, foreachActive := true, foreachArray := some 4, foreachIndex := 0,
    foreachIteratorOffset := 25 }

/-- The generator as it is suspended. -/
def generatorCoroutine : Coroutine where
  stack := emptySlots 3 6 ++ [.obj 4, .num 1]
  frames := [{ generatorFrame with slots := 0 }]
  needsResult := false
  tryHandlers := []

/-- The script after `generator();` and again at the call in `5 + generator()`: the callee is one
slot above the old base. -/
def callingVM : VM where
  stack := emptySlots 1 5 ++ [.num 5, .obj 3]
  frames := [{ closure := 1, slots := 0 }]
  objects := generatorVM.yield.vm.objects

/-- The generator in the calling machine. -/
def generatorClosure : ClosureObj := { function := 2, coroutine := some generatorCoroutine }

/-- No number is formatted here. -/
def noPrintf : Printf := ⟨fun _ => [], fun _ => []⟩

/-- The script at the call `generator(5)`, from the old base. -/
def sameBaseVM : VM := { callingVM with stack := emptySlots 1 5 ++ [.obj 3, .num 5] }

end Example

end VM

end Slp
