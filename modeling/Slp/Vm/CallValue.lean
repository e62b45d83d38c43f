import Slp.Vm.Mark

/-!
# Calls by the host

`slp_vm_call_value` calls a closure or a native function for the host, and then lowers the counts of
frames, handlers and slots to what they were.

## Main definitions

* `CallValue` : the calls, with what they return.
* `Restores` : what the host should find afterwards.
* `EntersOwnFrame`, `OwnHandlers`, `Apart`, `Completes` : when it does.
-/

namespace Slp

namespace VM

/-- `slp_vm_new_closure`. -/
def newClosure (sizeof : ObjType → ℕ) (vm : VM) (r : Ref) (f : FunctionObj) : VM × Ref :=
  let identity := vm.nextClosureIdentity + 1
  { vm with nextClosureIdentity := identity }.alloc sizeof
    (.closure { function := r, upvalues := List.replicate f.upvalueCount none, identity })

/-- What `slp_vm_call_value` calls for a value, if it can be called. -/
def callTarget? (sizeof : ObjType → ℕ) (vm : VM) (callable : Value) : Option (VM × Ref) :=
  match vm.objects.dereferenceValue (vm.objects.unwrapTaint callable) with
  | .obj r =>
    match vm.objects.get? r with
    | some (.function f) => some (vm.newClosure sizeof r f)
    | some (.closure _) => some (vm, r)
    | some (.native _) => some (vm, r)
    | _ => none
  | _ => none

end VM

namespace Nested

/-- The callee and the arguments on the stack. -/
def pushCall (vm : VM) (callee : Ref) (args : List Value) : VM :=
  args.foldl VM.push (vm.push (.obj callee))

/-- `slp_vm_call_value` in the machine `vm`: what it returns, the value that the callee completed
with, `*out_result`, and the machine.  The events of the call meet the condition `ok`. -/
inductive CallValue (sizeof : ObjType → ℕ) (fmt : Printf) (ok : Machine → Event → Prop) (vm : VM)
    (callable : Value) (args : List Value) : SlpResult → Option Value → Value → VM → Prop where
  | tooMany (h : 255 < args.length) :
    CallValue sizeof fmt ok vm callable args .runtimeError none .null vm
  | notCallable (hcount : args.length ≤ 255) (h : vm.callTarget? sizeof callable = none) :
    CallValue sizeof fmt ok vm callable args .runtimeError none .null vm
  | noRoom {vm' : VM} {callee : Ref} (hcount : args.length ≤ 255)
    (htarget : vm.callTarget? sizeof callable = some (vm', callee))
    (h : stackMax - vm'.top < args.length + 1) :
    CallValue sizeof fmt ok vm callable args .runtimeError none .null vm'
  | called {vm' vm₁ : VM} {callee : Ref} {result : SlpResult} {value : Option Value}
    (hcount : args.length ≤ 255) (htarget : vm.callTarget? sizeof callable = some (vm', callee))
    (hroom : args.length + 1 ≤ stackMax - vm'.top)
    (hrun : Run sizeof fmt ok
      (Machine.callVm sizeof fmt ⟨pushCall vm' callee args, []⟩ args.length false .host)
      (.ended result value vm₁)) :
    CallValue sizeof fmt ok vm callable args
      (if result = .ok ∧ vm₁.top ≤ vm'.top then .runtimeError else result) value
      (if result = .ok ∧ vm'.top < vm₁.top then vm₁.objects.dereferenceValue (vm₁.peek 0) else .null)
      (vm₁.restoreMarks vm'.top vm'.frames.length vm'.tryHandlers.length)

/-- What the host should find after a call in the machine `vm`. -/
structure Restores (vm : VM) (result : SlpResult) (value : Option Value) (out : Value) (vm' : VM) :
    Prop where
  top : vm'.top = vm.top
  frames : vm'.frames = vm.frames
  tryHandlers : vm'.tryHandlers = vm.tryHandlers
  completed : result = .ok → ∃ v, value = some v ∧ out = vm'.objects.dereferenceValue v
  failed : result ≠ .ok → out = .null

/-- The callee, if it is a closure, gets one frame: no argument has a name that no variable can have,
and the activation that it resumes has one frame only. -/
def EntersOwnFrame (sizeof : ObjType → ℕ) (vm : VM) (callable : Value) (args : List Value) : Prop :=
  ∀ vm' r c, vm.callTarget? sizeof callable = some (vm', r) → vm'.closure? r = some c →
    vm'.hasUnreachableName (vm'.namedArguments args) = false ∧ framesMade c = 1

/-- The outermost call does not end early: not by `OP_DONE`, nor by the marker `invoke`, whose callee
does not run. -/
def Completes (m : Machine) : Event → Prop
  | .done => 1 < m.calls.length
  | .invokeMarker _ _ => 1 < m.calls.length
  | _ => True

/-! ### The value of the callee -/

section Value

variable {sizeof : ObjType → ℕ} {fmt : Printf} {e vm vm' : VM} {target : Option ℤ} {m : Machine}
  {result result' : SlpResult} {value value' : Option Value} {v w : Value}

/-- A run ends with what its last call returns. -/
theorem ended_of_finish (hend : m.finish result value = .ended result' value' vm') :
    result' = result ∧ value' = value ∧ vm' = m.vm := by
  unfold Machine.finish at hend
  split at hend
  · cases hend
    exact ⟨rfl, rfl, rfl⟩
  · split at hend
    · cases hend
      exact ⟨rfl, rfl, rfl⟩
    · cases hend
    · cases hend

/-- Only the outermost call ends the run. -/
theorem Guarded.finish_ended (h : Guarded e target m)
    (hend : m.finish result value = .ended result' value' vm') :
    ∃ c, m.calls = [c] ∧ c.IsOuter e target := by
  obtain ⟨inner, c, hcalls, hc, hkeeps⟩ := h.calls
  cases inner with
  | nil => exact ⟨c, hcalls, hc⟩
  | cons c' inner =>
    unfold Machine.finish at hend
    rw [hcalls, List.cons_append] at hend
    have hc' := hkeeps c' List.mem_cons_self
    cases hcaller : c'.caller with
    | host => rw [hcaller] at hc'; exact hc'.elim
    | plain => simp only [hcaller] at hend; cases hend
    | restoring top frameCount handlerCount => simp only [hcaller] at hend; cases hend

theorem Call.IsOuter.target_eq {c : Call} (hc : c.IsOuter e target)
    (htarget : ∀ t, target = some t → t = e.frames.length) (hcalls : m.calls = [c])
    (hloop : m.InLoop) : m.target? = some (e.frames.length : ℤ) := by
  obtain ⟨-, c', calls, hcalls', hsome⟩ := hloop
  rw [hcalls] at hcalls'
  cases hcalls'
  obtain ⟨t, ht⟩ := Option.isSome_iff_exists.1 hsome
  rw [Machine.target?, hcalls, List.head?_cons, Option.bind_some, ht, ← htarget t (hc.target ▸ ht)]

/-- The callee completed with the value on top of the stack. -/
def Delivers (value : Option Value) (vm : VM) : Prop := ∃ v, value = some v ∧ vm.stack.getLast? = some v

/-- A loop that reaches its target frame count has completed the callee. -/
theorem Guarded.settle_delivers (h : Guarded e target m)
    (htarget : ∀ t, target = some t → t = e.frames.length) {atZero : Bool}
    (hlast : m.vm.stack.getLast? = some v)
    (hend : m.settle atZero v = .ended .ok value vm') : Delivers value vm' := by
  unfold Machine.settle at hend
  split at hend
  · next hstop =>
    obtain ⟨c, hcalls, hc⟩ := h.finish_ended hend
    obtain ⟨-, rfl, rfl⟩ := ended_of_finish hend
    refine ⟨v, ?_, hlast⟩
    have hle : m.vm.frames.length ≤ e.frames.length := by
      obtain hstop | ⟨-, hzero⟩ := hstop
      · rw [Machine.target?, hcalls, List.head?_cons, Option.bind_some, hc.target] at hstop
        have := htarget _ hstop
        omega
      · omega
    rw [Machine.completed, hcalls, List.head?_cons, Option.bind_some, hc.base, if_pos hle]
  · cases hend

theorem getLast?_push {v : Value} (h : vm.stack.length < stackMax) :
    (vm.push v).stack.getLast? = some v := by
  rw [VM.push_of_lt vm v h, List.getLast?_concat]

theorem getLast?_setTop_push {t : ℤ} (ht : t < stackMax) (v : Value) :
    ((vm.setTop t).push v).stack.getLast? = some v := by
  have : 0 < stackMax := by decide
  exact getLast?_push (by rw [length_setTop]; omega)

/-- A frame that was not entered through a continuation leaves its value. -/
theorem getLast?_opReturn {f : CallFrame} (hf : vm.currentFrame? = some f)
    (hlink : f.continuationReturn = none) (hslots : f.slots < stackMax) :
    (vm.opReturn sizeof).stack.getLast? = some (vm.returned sizeof) := by
  have hf' : vm.pop.2.currentFrame? = some f := by
    rw [VM.currentFrame?, VM.pop_frames]
    exact hf
  have hret : vm.returned sizeof = (vm.pop.2.returnedValue sizeof f vm.pop.1).2 := by
    rw [VM.returned, hf]
    rfl
  unfold VM.opReturn
  rw [hret]
  simp only [hf', hlink]
  exact getLast?_setTop_push hslots _

theorem rootIndexFrom_le (vm : VM) (i : ℕ) : vm.rootIndexFrom i ≤ i := by
  induction i with
  | zero => exact Nat.le_refl _
  | succ i ih =>
    rw [VM.rootIndexFrom]
    split
    · split
      · omega
      · exact Nat.le_refl _
    · exact Nat.le_refl _

theorem exists_root (h : vm.frames ≠ []) : ∃ root, vm.frames[vm.rootIndex]? = some root := by
  have hpos := List.length_pos_of_ne_nil h
  have hle := rootIndexFrom_le vm (vm.frames.length - 1)
  exact ⟨_, List.getElem?_eq_getElem (by rw [VM.rootIndex]; omega)⟩

theorem getLast?_inlineReturn (hframes : vm.frames ≠ []) (hvm : WellFormed vm) :
    vm.inlineReturn.stack.getLast? = some vm.pop.1 := by
  obtain ⟨root, hroot⟩ := exists_root hframes
  have hslots := hvm.slots root (List.mem_of_getElem? hroot)
  simp only [VM.inlineReturn, VM.rootIndex_pop, VM.pop_frames, hroot]
  exact getLast?_setTop_push hslots _

theorem getLast?_yield (hframes : vm.frames ≠ []) (hvm : WellFormed vm) (hy : vm.yield = .ok vm') :
    vm'.stack.getLast? = some vm.pop.1 := by
  obtain ⟨root, hroot⟩ := exists_root hframes
  have hslots := hvm.slots root (List.mem_of_getElem? hroot)
  simp only [VM.yield, VM.rootIndex_pop, VM.pop_frames, hroot] at hy
  split at hy
  · cases hy
  · cases hy
    exact getLast?_setTop_push hslots _

theorem abortTo_frames (vm : VM) (stop : ℕ) : (vm.abortTo stop).frames = vm.frames.take stop :=
  VM.push_frames _ _

theorem getLast?_abortTo (hframes : vm.frames ≠ []) (hvm : WellFormed vm) (stop : ℕ) :
    (vm.abortTo stop).stack.getLast? = some .null := by
  obtain ⟨f, hf, hslots⟩ : ∃ f, (vm.frames[stop]?).or vm.currentFrame? = some f ∧
      f.slots < stackMax := by
    cases hstop : vm.frames[stop]? with
    | some f => exact ⟨f, rfl, hvm.slots f (List.mem_of_getElem? hstop)⟩
    | none =>
      obtain ⟨f, hf⟩ := List.getLast?_isSome.2 hframes |> Option.isSome_iff_exists.1
      exact ⟨f, hf, hvm.slots f (List.mem_of_getLast? hf)⟩
  simp only [VM.abortTo, hf, Option.elim_some]
  exact getLast?_setTop_push hslots _

/-- Two calls are in progress or more: an end is not the end of the outermost call. -/
theorem Guarded.not_finish_ended (h : Guarded e target m) (hlen : 1 < m.calls.length) :
    m.finish result value ≠ .ended result' value' vm' := by
  intro hend
  obtain ⟨c, hcalls, -⟩ := h.finish_ended hend
  rw [hcalls] at hlen
  exact lt_irrefl _ hlen

theorem not_callVm_ended {argCount : ℕ} {hasMessage : Bool}
    {caller : Caller} (hcaller : caller ≠ .host) :
    m.callVm sizeof fmt argCount hasMessage caller ≠ .ended result value vm' := by
  have hinner : ∀ vm base total r v, Machine.finish
      ⟨vm, ⟨none, base, caller, total⟩ :: m.calls⟩ r v ≠ .ended result value vm' := by
    intro vm base total r v hend
    cases caller with
    | host => exact hcaller rfl
    | plain => cases hend
    | restoring top frameCount handlerCount => cases hend
  intro hend
  unfold Machine.callVm at hend
  dsimp only at hend
  split at hend
  · split at hend
    · cases hend
    · exact hinner _ _ _ _ _ hend
  · cases hend
  · exact hinner _ _ _ _ _ hend
  · exact hinner _ _ _ _ _ hend

theorem Guarded.not_callMarked_ended (h : Guarded e target m) (hlen : 1 < m.calls.length)
    {argCount : ℕ} : m.callMarked sizeof fmt argCount ≠ .ended result value vm' := by
  have hinner : ∀ vm r v, Machine.finish { m with vm } r v ≠ .ended result value vm' := by
    intro vm r v hend
    obtain ⟨inner, c, hcalls, -, hkeeps⟩ := h.calls
    cases inner with
    | nil => rw [hcalls] at hlen; exact lt_irrefl _ hlen
    | cons c' inner =>
      unfold Machine.finish at hend
      rw [hcalls, List.cons_append] at hend
      have hc' := hkeeps c' List.mem_cons_self
      cases hcaller : c'.caller with
      | host => rw [hcaller] at hc'; exact hc'.elim
      | plain => simp only [hcaller] at hend; cases hend
      | restoring top frameCount handlerCount => simp only [hcaller] at hend; cases hend
  intro hend
  unfold Machine.callMarked at hend
  dsimp only at hend
  split at hend
  · split at hend
    · exact hinner _ _ _ hend
    · exact hinner _ _ _ hend
  · cases hend
  · exact hinner _ _ _ hend
  · exact hinner _ _ _ hend

/-- **The callee delivers its value** when the outermost call ends with `SLP_OK`. -/
theorem Guarded.step_delivers (h : Guarded e target m) (hown : OwnHandlers e)
    (htarget : ∀ t, target = some t → t = e.frames.length) {ev : Event} (hvm : WellFormed m.vm)
    (hlegal : m.Legal ev) (hapart : Apart e m ev) (hcompletes : Completes m ev)
    (hend : m.step sizeof fmt ev = .ended .ok value vm') : Delivers value vm' := by
  have hfailed : ∀ {m' : Machine} {v}, m'.finish .runtimeError v ≠ .ended .ok value vm' := by
    intro m' v hend
    obtain ⟨hres, -⟩ := ended_of_finish hend
    cases hres
  have houtcome : ∀ o, m.ofOutcome o ≠ .ended .ok value vm' := by
    intro o hend
    unfold Machine.ofOutcome at hend
    split at hend
    · cases hend
    · exact hfailed hend
  cases ev with
  | data vm i => cases hend
  | call r cl argCount hasMessage trace => exact absurd hend (houtcome _)
  | invoke k argCount hasMessage trace => cases hend
  | pushHandler catchIp => cases hend
  | popHandler => cases hend
  | throw =>
    simp only [Machine.step] at hend
    split at hend
    · cases hend
    · exact absurd hend hfailed
  | opReturn =>
    obtain ⟨f, hf⟩ := Option.isSome_iff_exists.1 (List.getLast?_isSome.2 hlegal.1)
    have hret : Above e (m.vm.opReturn sizeof) := h.above.opReturn hown hapart.1 hvm hapart.2
    simp only [Machine.step] at hend
    split at hend
    · cases hend
    · next hnone =>
      have hlink : f.continuationReturn = none := by
        cases hr : f.continuationReturn with
        | none => rfl
        | some r =>
          obtain ⟨k, hk⟩ := hvm.links f (List.mem_of_getLast? hf) r hr
          exact absurd (by simp [VM.returnsTo?, VM.currentFrame?, hf, hr, hk]) hnone
      split at hend
      · next hzero =>
        have hpopped : Guarded e target { m with vm := { m.vm.opReturn sizeof with
            stack := m.vm.pop.2.stack } } := h.setVm ⟨hret.frames, hret.handlers⟩
        obtain ⟨c, hcalls, hc⟩ := hpopped.finish_ended hend
        have hn := hret.length_frames
        rw [hc.target_eq htarget (m := m) hcalls hlegal] at hzero
        have := hzero.1
        exact absurd (congrArg some (by omega)) hzero.2
      · exact (h.setVm hret).settle_delivers htarget
          (getLast?_opReturn hf hlink (hvm.slots f (List.mem_of_getLast? hf))) hend
  | inlineReturn =>
    exact (h.setVm (h.above.inlineReturn hown hapart)).settle_delivers htarget
      (getLast?_inlineReturn hlegal.1 hvm) hend
  | yield =>
    have hyield := h.above.yield hown hapart
    simp only [Machine.step] at hend
    split at hend
    · next heq =>
      rw [heq] at hyield
      exact (h.setVm hyield).settle_delivers htarget (getLast?_yield hlegal.1 hvm heq) hend
    · exact absurd hend hfailed
  | callcc hasArg text line => exact absurd hend (houtcome _)
  | abort =>
    have habort := h.setVm (h.above.abortTo hown hapart)
    have hlast := getLast?_abortTo hlegal.1.1 hvm m.stopCount
    simp only [Machine.step] at hend
    split at hend
    · next hexit =>
      obtain ⟨c, hcalls, hc⟩ := habort.finish_ended hend
      obtain ⟨-, rfl, rfl⟩ := ended_of_finish hend
      have hstop : m.stopCount = e.frames.length := by
        rw [Machine.stopCount, if_pos hexit, Machine.exitTarget,
          hc.target_eq htarget (m := m) hcalls hlegal.1]
        rfl
      refine ⟨.null, ?_, hlast⟩
      rw [Machine.completed, hcalls, List.head?_cons, Option.bind_some, hc.base, if_pos]
      rw [abortTo_frames, List.length_take, hstop]
      exact Nat.min_le_left _ _
    · exact habort.settle_delivers htarget hlast hend
  | done => exact absurd hend (h.not_finish_ended hcompletes)
  | halt =>
    obtain ⟨hres, -⟩ := ended_of_finish hend
    cases hres
  | error => exact absurd hend hfailed
  | callback argCount hasMessage caller =>
    refine absurd hend (not_callVm_ended ?_)
    rintro rfl
    exact hlegal
  | nativeReturn v =>
    obtain ⟨-, rfl, rfl⟩ := ended_of_finish hend
    refine ⟨v, rfl, getLast?_setTop_push ?_ v⟩
    have := hvm.stack
    unfold VM.top
    omega
  | invokeMarker vm' argCount =>
    obtain ⟨-, hf, hh⟩ := hlegal
    exact absurd hend ((h.setVm (h.above.trans (.of_eq hf hh))).not_callMarked_ended hcompletes)

/-- A state in which the outermost call has ended with `SLP_OK` only if it delivered the value. -/
def State.Delivers : State → Prop
  | .running _ => True
  | .ended result value vm => result = .ok → Nested.Delivers value vm

/-- **The callee delivers its value** in a run that neither reaches below the mark nor ends early. -/
theorem Run.delivers (hown : OwnHandlers e) (htarget : ∀ t, target = some t → t = e.frames.length)
    {s s' : State} (hrun : Run sizeof fmt (fun m ev => Apart e m ev ∧ Completes m ev) s s')
    (hs : s.Guarded e target) (hdelivers : s.Delivers) : s'.Delivers := by
  induction hrun with
  | start => exact hdelivers
  | @step m hrun ev hvm hlegal hev ih =>
    have hguarded : Guarded e target m := hrun.guarded hown (fun _ _ h => h.1) hs
    cases hend : m.step sizeof fmt ev with
    | running m' => trivial
    | ended result value vm' =>
      rintro rfl
      exact hguarded.step_delivers hown htarget hvm hlegal hev.1 hev.2 hend

end Value

/-! ### The start of a call -/

section Start

variable {sizeof : ObjType → ℕ} {fmt : Printf} {vm vm' : VM} {callee : Ref} {args : List Value}

theorem pushCall_eq (hroom : (args.length : ℤ) + 1 ≤ stackMax - vm.top) :
    pushCall vm callee args = { vm with stack := vm.stack ++ .obj callee :: args } := by
  unfold VM.top at hroom
  have h : vm.stack.length + (.obj callee :: args).length ≤ stackMax := by
    rw [List.length_cons]
    omega
  exact VM.foldl_push vm (.obj callee :: args) h

theorem callee?_pushCall {o : Obj} (hroom : (args.length : ℤ) + 1 ≤ stackMax - vm.top)
    (ho : vm.objects.get? callee = some o) :
    (pushCall vm callee args).callee? args.length = some (callee, o) := by
  have hpeek : (pushCall vm callee args).peek args.length = .obj callee := by
    rw [pushCall_eq hroom, VM.peek, List.reverse_append, List.reverse_cons, List.append_assoc,
      List.getD_append_right _ _ _ _ (by rw [List.length_reverse]), List.length_reverse, Nat.sub_self]
    rfl
  have hobj : (pushCall vm callee args).objects = vm.objects := by rw [pushCall_eq hroom]
  simp only [VM.callee?, hpeek, hobj, ho, Option.map_some]

theorem callArguments_pushCall (hroom : (args.length : ℤ) + 1 ≤ stackMax - vm.top) :
    (pushCall vm callee args).callArguments args.length false = args := by
  have htotal : VM.totalArgs args.length false = args.length := rfl
  have hbase : (pushCall vm callee args).callBase args.length false = vm.stack.length := by
    rw [VM.callBase, VM.top, pushCall_eq hroom, htotal, List.length_append, List.length_cons]
    omega
  have hslots : (pushCall vm callee args).callArguments args.length false =
      (List.range args.length).map fun i => (vm.stack ++ .obj callee :: args).getD
        (vm.stack.length + (i + 1)) .null := by
    rw [VM.callArguments, VM.arguments, hbase, pushCall_eq hroom]
    simp only [List.pure_def, List.bind_eq_flatMap, List.map_flatMap, List.map_singleton]
    rw [← List.map_eq_flatMap]
    refine List.map_congr_left fun i _ => ?_
    rw [VM.slot, if_neg Bool.false_ne_true]
    exact congrArg (List.getD _ · _) (by omega)
  rw [hslots]
  refine List.ext_getElem (by rw [List.length_map, List.length_range]) fun i h₁ h₂ => ?_
  rw [List.getElem_map, List.getElem_range, List.getD_append_right _ _ _ _ (Nat.le_add_right _ _),
    Nat.add_sub_cancel_left, List.getD_cons_succ, List.getD_eq_getElem _ _ h₂]

/-- What can be called is a closure or a native function, in a machine with the same marks. -/
theorem callTarget?_spec {callable : Value}
    (h : vm.callTarget? sizeof callable = some (vm', callee)) :
    SameMarks vm vm' ∧ vm'.stack = vm.stack ∧
      ((∃ c, vm'.objects.get? callee = some (.closure c)) ∨
        ∃ f, vm'.objects.get? callee = some (.native f)) := by
  unfold VM.callTarget? at h
  split at h
  · split at h
    · next f _ =>
      cases h
      exact ⟨⟨rfl, rfl⟩, rfl, .inl ⟨_, VM.alloc_get?_self _ sizeof _⟩⟩
    · next c hc =>
      cases h
      exact ⟨.refl vm, rfl, .inl ⟨c, hc⟩⟩
    · next f hf =>
      cases h
      exact ⟨.refl vm, rfl, .inr ⟨f, hf⟩⟩
    · cases h
  · cases h

/-- The state in which the call of the host starts. -/
theorem callVm_guarded (fmt : Printf) {callable : Value} (hroom : (args.length : ℤ) + 1 ≤ stackMax - vm'.top)
    (htarget : vm.callTarget? sizeof callable = some (vm', callee))
    (hframe : EntersOwnFrame sizeof vm callable args) :
    ∃ target : Option ℤ, (∀ t, target = some t → t = vm.frames.length) ∧
      (Machine.callVm sizeof fmt ⟨pushCall vm' callee args, []⟩ args.length false .host).Guarded vm
        target ∧
      (Machine.callVm sizeof fmt ⟨pushCall vm' callee args, []⟩ args.length false .host).Delivers := by
  obtain ⟨hmarks, -, hcallee⟩ := callTarget?_spec htarget
  have hpush : SameMarks vm (pushCall vm' callee args) :=
    (hmarks.trans (push_same vm' _)).trans (foldl_push_same _ args)
  have htotal : VM.totalArgs args.length false = args.length := rfl
  unfold Machine.callVm
  simp only [htotal]
  obtain ⟨c, hc⟩ | ⟨f, hf⟩ := hcallee
  · rw [callee?_pushCall hroom hc]
    dsimp only
    have hmakes := callClosure_makes sizeof fmt (pushCall vm' callee args) callee c args.length
      false (some {})
    obtain ⟨hname, hone⟩ := hframe vm' callee c htarget (VM.closure?_of_get? hc)
    have hname' : (pushCall vm' callee args).hasUnreachableName
        ((pushCall vm' callee args).namedArguments
          ((pushCall vm' callee args).callArguments args.length false)) = false := by
      rw [callArguments_pushCall hroom, pushCall_eq hroom]
      exact hname
    rw [hname', if_neg Bool.false_ne_true, hone] at hmakes
    have habove := hpush.above.trans hmakes.above
    split
    · next vm₁ heq =>
      have hlen := hmakes.length vm₁ heq
      rw [heq] at habove
      refine ⟨some vm.frames.length, fun t ht => (Option.some.inj ht).symm, ⟨habove, [], _, rfl,
        ⟨rfl, ?_, ?_⟩, by simp⟩, trivial⟩
      · rw [hlen, hpush.frames]
        simp
      · exact congrArg List.length hpush.frames
    · next heq =>
      rw [heq] at habove
      exact ⟨none, by simp, habove, by rintro ⟨⟩⟩
  · rw [callee?_pushCall hroom hf]
    exact ⟨none, by simp, ⟨hpush.above, [], _, rfl, ⟨rfl, rfl, congrArg List.length hpush.frames⟩,
      by simp⟩, trivial⟩

theorem peek_zero {v : Value} (h : vm.stack.getLast? = some v) : vm.peek 0 = v := by
  obtain ⟨s, hs⟩ := List.getLast?_eq_some_iff.1 h
  rw [VM.peek, hs, List.reverse_append, List.reverse_singleton]
  rfl

/-- Lowering the counts restores what is still there. -/
theorem Above.restoreMarks {vm₁ : VM} (h : Above vm vm₁) {t : ℤ} :
    (vm₁.restoreMarks t vm.frames.length vm.tryHandlers.length).frames = vm.frames ∧
      (vm₁.restoreMarks t vm.frames.length vm.tryHandlers.length).tryHandlers = vm.tryHandlers := by
  obtain ⟨⟨fs, hfs⟩, hs, hhs⟩ := h
  refine ⟨?_, ?_⟩
  · change vm₁.frames.take _ = _
    rw [← hfs, List.take_left]
  · change vm₁.tryHandlers.take _ ++ List.replicate (_ - vm₁.tryHandlers.length) _ = _
    rw [← hhs, List.take_left, List.length_append, Nat.sub_eq_zero_of_le (Nat.le_add_right _ _)]
    exact List.append_nil _

end Start

/-! ### The host's view -/

section Host

variable {sizeof : ObjType → ℕ} {fmt : Printf} {vm vm' : VM} {callable : Value} {args : List Value}
  {result : SlpResult} {value : Option Value} {out : Value}

/-- **A call restores the host's view** when the callee gets its own frame, and no event of the call
reaches below the frames and the handlers of the host or ends the call early. -/
theorem restores_of_apart (hframe : EntersOwnFrame sizeof vm callable args) (hown : OwnHandlers vm)
    (hcall : CallValue sizeof fmt (fun m ev => Apart vm m ev ∧ Completes m ev) vm callable args result
      value out vm') : Restores vm result value out vm' := by
  cases hcall with
  | tooMany h => exact ⟨rfl, rfl, rfl, by rintro ⟨⟩, fun _ => rfl⟩
  | notCallable hcount h => exact ⟨rfl, rfl, rfl, by rintro ⟨⟩, fun _ => rfl⟩
  | noRoom hcount htarget h =>
    obtain ⟨hmarks, hstack, -⟩ := callTarget?_spec htarget
    exact ⟨by rw [VM.top, hstack]; rfl, hmarks.frames, hmarks.handlers, by rintro ⟨⟩, fun _ => rfl⟩
  | @called vm'' vm₁ callee result value hcount htarget hroom hrun =>
    obtain ⟨hmarks, hstack, -⟩ := callTarget?_spec htarget
    obtain ⟨target, ht, hs, hdelivers⟩ := callVm_guarded fmt hroom htarget hframe
    have habove : Above vm vm₁ := hrun.guarded hown (fun _ _ h => h.1) hs
    have hvalue := hrun.delivers hown ht hs hdelivers
    rw [hmarks.frames, hmarks.handlers]
    obtain ⟨hframes, hhandlers⟩ := habove.restoreMarks (t := vm''.top)
    have htop : vm''.top = vm.top := by rw [VM.top, hstack]; rfl
    refine ⟨?_, hframes, hhandlers, ?_, ?_⟩
    · rw [← htop]
      exact VM.setTop_top _ (Int.natCast_nonneg _)
    · intro hok
      split at hok
      · cases hok
      · next hnot =>
        subst hok
        obtain ⟨v, hv, hlast⟩ := hvalue rfl
        refine ⟨v, hv, ?_⟩
        rw [if_pos ⟨rfl, lt_of_not_ge fun hle => hnot ⟨rfl, hle⟩⟩, peek_zero hlast]
        rfl
    · intro hfail
      rw [if_neg]
      rintro ⟨rfl, hlt⟩
      exact hfail (if_neg fun hle => absurd hle.2 (not_le_of_gt hlt))

end Host

/-! ### A callee that returns and one that throws -/

section Example

set_option maxRecDepth 100000

/-- Whether the object is a suspended closure. -/
def isSuspended : Obj → Bool
  | .closure c => c.coroutine.isSome
  | _ => false

/-- A machine without links and saved activations. -/
theorem wellFormed_of {vm : VM} (hstack : vm.stack.length ≤ stackMax)
    (hframes : ∀ f ∈ vm.frames, f.slots < stackMax ∧ f.continuationReturn = none)
    (hobjects : ∀ x ∈ vm.objects, isSuspended x.obj = false) : WellFormed vm := by
  refine ⟨hstack, fun f hf => (hframes f hf).1, fun f hf r hr => ?_, fun r c k hc hk => ?_⟩
  · rw [(hframes f hf).2] at hr
    cases hr
  · obtain ⟨x, hx, -, hobj⟩ := Heap.exists_mem_of_get? (VM.get?_of_closure? hc)
    have := hobjects x hx
    rw [hobj, isSuspended, hk] at this
    cases this

/-- The script `1` has an active handler and calls a native function, which calls the closure `3`. -/
def hostVM : VM where
  stack := VM.emptySlots 1 4
  frames := [{ closure := 1, slots := 0 }]
  tryHandlers := [⟨7, 1, 12⟩]
  objects := [⟨4, false, .array {}⟩, ⟨3, false, .closure { function := 2 }⟩, ⟨2, false, .function {}⟩,
    ⟨1, false, .closure { function := 0 }⟩, ⟨0, false, .function {}⟩]

/-- The host has called the closure `c` at `r`, which is about to start. -/
def startOf (vm : VM) (r : Ref) (c : ClosureObj) : Machine :=
  let vm' := (vm.callClosure (fun _ => 16) VM.noPrintf r c 0 false (some {})).vm
  ⟨vm', [⟨some (vm'.frames.length - 1), vm.frames.length, .host, 0⟩]⟩

theorem callVm_startOf {vm : VM} {r : Ref} {c : ClosureObj}
    (hcallee : vm.callee? (VM.totalArgs 0 false) = some (r, .closure c))
    (hok : (vm.callClosure (fun _ => 16) VM.noPrintf r c 0 false (some {})).isOk = true) :
    Machine.callVm (fun _ => 16) VM.noPrintf ⟨vm, []⟩ 0 false .host = .running (startOf vm r c) := by
  unfold Machine.callVm startOf
  simp only [hcallee]
  cases hcall : vm.callClosure (fun _ => 16) VM.noPrintf r c 0 false (some {}) with
  | error message vm' =>
    rw [hcall] at hok
    cases hok
  | ok vm' => rfl

/-- The callee is about to start. -/
def calleeMachine : Machine := startOf (pushCall hostVM 3 []) 3 { function := 2 }

theorem callVm_hostVM : Machine.callVm (fun _ => 16) VM.noPrintf ⟨pushCall hostVM 3 [], []⟩ 0 false
    .host = .running calleeMachine :=
  callVm_startOf (by decide) (by decide)

theorem calleeMachine_wellFormed : WellFormed calleeMachine.vm :=
  wellFormed_of (by decide) (by decide) (by decide)

theorem inLoop_calleeMachine : calleeMachine.InLoop :=
  ⟨by decide, _, _, rfl, rfl⟩

/-- The outermost call returns. -/
theorem finish_host {m : Machine} {c : Call} (hcalls : m.calls = [c]) (hc : c.caller = .host)
    (result : SlpResult) (value : Option Value) :
    m.finish result value = .ended result value m.vm := by
  unfold Machine.finish
  rw [hcalls]
  simp only [hc]

/-- The callee returns. -/
theorem step_opReturn_calleeMachine : calleeMachine.step (fun _ => 16) VM.noPrintf .opReturn =
    .ended .ok (some (calleeMachine.vm.returned fun _ => 16))
      (calleeMachine.vm.opReturn fun _ => 16) := by
  have hcompleted : Machine.completed ⟨calleeMachine.vm.opReturn fun _ => 16, calleeMachine.calls⟩
      (calleeMachine.vm.returned fun _ => 16) = some (calleeMachine.vm.returned fun _ => 16) := by
    decide
  unfold Machine.step
  rw [if_neg (by decide), if_neg (by decide), Machine.settle,
    if_pos (by decide), hcompleted, finish_host rfl rfl]

theorem restores_of_apart_returning : ∃ value out vm',
    CallValue (fun _ => 16) VM.noPrintf (fun m ev => Apart hostVM m ev ∧ Completes m ev) hostVM
        (.obj 3) [] .ok value out vm' ∧
      Restores hostVM .ok value out vm' := by
  have hlink : calleeMachine.vm.returnsTo? = none := by decide
  have hrun : Run (fun _ => 16) VM.noPrintf (fun m ev => Apart hostVM m ev ∧ Completes m ev)
      (.running calleeMachine) (.ended .ok (some (calleeMachine.vm.returned fun _ => 16))
        (calleeMachine.vm.opReturn fun _ => 16)) := by
    rw [← step_opReturn_calleeMachine]
    refine .step .start .opReturn calleeMachine_wellFormed inLoop_calleeMachine
      ⟨⟨by decide, fun k hk => ?_⟩, trivial⟩
    rw [hlink] at hk
    cases hk
  rw [← callVm_hostVM] at hrun
  have htarget : hostVM.callTarget? (fun _ => 16) (.obj 3) = some (hostVM, 3) := by decide
  have hcall : CallValue (fun _ => 16) VM.noPrintf (fun m ev => Apart hostVM m ev ∧ Completes m ev)
      hostVM (.obj 3) [] _ _ _ _ := .called (by decide) htarget (by decide) hrun
  rw [if_neg (by decide)] at hcall
  refine ⟨_, _, _, hcall, restores_of_apart ?_ ?_ hcall⟩
  · intro vm' r c ht hc
    rw [htarget] at ht
    cases ht
    have hc' : hostVM.closure? 3 = some { function := 2 } := by decide
    rw [hc'] at hc
    cases hc
    exact ⟨rfl, rfl⟩
  · unfold OwnHandlers
    decide

/-- The handler of the script has caught what the callee threw. -/
def caughtMachine : Machine :=
  { calleeMachine with
    vm := calleeMachine.vm.pop.2.catchWith ⟨7, 1, 12⟩ calleeMachine.vm.pop.1 }

theorem step_throw_calleeMachine : calleeMachine.step (fun _ => 16) VM.noPrintf .throw =
    .running caughtMachine := by
  have hlast : calleeMachine.vm.pop.2.tryHandlers.getLast? = some ⟨7, 1, 12⟩ := by decide
  simp only [Machine.step, hlast]
  rfl

/-- The script returns in the loop of the callee. -/
def leftVM : VM :=
  { caughtMachine.vm.opReturn fun _ => 16 with stack := caughtMachine.vm.pop.2.stack }

theorem step_opReturn_caughtMachine : caughtMachine.step (fun _ => 16) VM.noPrintf .opReturn =
    .ended .ok none leftVM := by
  unfold Machine.step
  rw [if_neg (by decide), if_pos (by decide), finish_host rfl rfl]
  rfl

/-- The callee throws to the handler of the script, which returns: the frame of the script is gone. -/
theorem not_restores_throwing : ∃ result value out vm',
    CallValue (fun _ => 16) VM.noPrintf (fun _ _ => True) hostVM (.obj 3) [] result value out vm' ∧
      ¬ Restores hostVM result value out vm' := by
  have hrun : Run (fun _ => 16) VM.noPrintf (fun _ _ => True) (.running calleeMachine)
      (.ended .ok none leftVM) := by
    have hcaught : Run (fun _ => 16) VM.noPrintf (fun _ _ => True) (.running calleeMachine)
        (.running caughtMachine) := by
      rw [← step_throw_calleeMachine]
      exact .step .start .throw calleeMachine_wellFormed inLoop_calleeMachine trivial
    rw [← step_opReturn_caughtMachine]
    exact .step hcaught .opReturn
      (wellFormed_of (by decide) (by decide) (by decide))
      ⟨by decide, _, _, rfl, rfl⟩ trivial
  rw [← callVm_hostVM] at hrun
  have htarget : hostVM.callTarget? (fun _ => 16) (.obj 3) = some (hostVM, 3) := by decide
  refine ⟨_, _, _, _, .called (by decide) htarget (by decide) hrun, fun h => ?_⟩
  have hframes := h.frames
  revert hframes
  decide

end Example

end Nested

end Slp
