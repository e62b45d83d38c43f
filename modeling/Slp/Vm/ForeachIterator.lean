import Slp.Vm.ForeachNest
import Slp.Vm.Stringify

/-!
# Iterators of lists

The iterator that `[$list iterator]` gives has its position in the object.  The builtins that
consume it go by that; a loop goes by the iterator in its stack slot, and takes the position over
only when the array that its frame remembers is another one.

* `stdlibIteratorNext`, `collectIteratorValues` : how the builtins consume an iterator.
* `IteratorRun` : loops over one iterator, inside one another or left by break, with calls of
  builtins that consume it and other code between the steps.
* `deliversOnce_of_synced` : **the elements of the list are handed out in order, each once**, as
  long as no loop makes a step with a slot that is behind the position.
-/

namespace Slp

namespace VM

/-- `SlpStdlibIterator`. -/
structure StdlibIterator where
  source : Value
  index : ℕ := 0
  done : Bool := false

/-- How `collect_iterator_values` ends: with the values, with a call that failed, or with a
warning. -/
inductive Collected where
  | values (vm : VM) (vs : List Value)
  | failed (vm : VM)
  | refused (message : Bytes)

section

variable (C : CLib) (call : VM → VM × Option Value) (drain : VM → Ref → VM × Option (List Value))

/-- `stdlib_iterator_next`, with the value if there is one.  A generator, which is pushed, is
called by `call`; none is a call that failed. -/
def stdlibIteratorNext (vm : VM) (iterator : StdlibIterator) : VM × StdlibIterator × Option Value :=
  if iterator.done then (vm, iterator, none)
  else
    match iterator.source with
    | .obj r =>
      match vm.objects.get? r with
      | some (.array a) =>
        if iterator.index ≥ a.count then (vm, { iterator with done := true }, none)
        else (vm, { iterator with index := iterator.index + 1 },
          some (a.elements.getD iterator.index .null))
      | some (.closure _) =>
        match call (vm.push (.obj r)) with
        | (vm, none) => (vm, { iterator with done := true }, none)
        | (vm, some value) =>
          if value = .null then (vm, iterator, none)
          else (vm, { iterator with index := iterator.index + 1 }, some value)
      | some (.javaObject j) =>
        match j.kind, j.list with
        | .iterator, some l =>
          match vm.objects.get? l with
          | some (.array a) =>
            let index := j.value.asNum
            if index < 0 ∨ index ≥ a.count then (vm, { iterator with done := true }, none)
            else (vm.setObj r (.javaObject { j with value := .num (index + 1) }),
              { iterator with index := iterator.index + 1 },
              some (a.elements.getD index.toNat .null))
          | _ => (vm, { iterator with done := true }, none)
        | _, _ => (vm, { iterator with done := true }, none)
      | _ => (vm, { iterator with done := true }, none)
    | _ => (vm, iterator, none)

/-- The warning about a value that is no iterator; the buffer has 256 bytes. -/
def notIterator (h : Heap) (v : Value) : Bytes :=
  let text := ((h.stringify? C v).getD []).takeWhile (· ≠ 0)
  let text := match v with
    | .obj r => match h.get? r with
      | some (.string _) => ascii "'" ++ text ++ ascii "'"
      | _ => text
    | _ => text
  (ascii "expected iterator (@array or &closure)--received: " ++ text).take 255

/-- `collect_iterator_values`, with the values that it pushes to the array.  The generator at an
address is called by `drain` until it returns null or is not suspended. -/
def collectIteratorValues (vm : VM) (iterator : Value) : Collected :=
  match iterator with
  | .obj r =>
    match vm.objects.get? r with
    | some (.array a) => .values vm a.live
    | some (.closure _) =>
      match drain vm r with
      | (vm, some vs) => .values vm vs
      | (vm, none) => .failed vm
    | some (.javaObject j) =>
      match j.kind, j.list with
      | .iterator, some l =>
        match vm.objects.get? l with
        | some (.array a) =>
          let index := j.value.asNum.toNat
          .values (vm.setObj r (.javaObject { j with value := .num (max index a.count : ℕ) }))
            (a.live.drop index)
        | _ => .refused (notIterator C vm.objects iterator)
      | _, _ => .refused (notIterator C vm.objects iterator)
    | _ => .refused (notIterator C vm.objects iterator)
  | _ => .refused (notIterator C vm.objects iterator)

end

end VM

namespace Heap

/-- The object at `q` is an iterator of the array `a` at `l`, with `n` elements behind it. -/
structure IteratorAt (h : Heap) (q l : Ref) (a : ArrayObj) (n : ℕ) : Prop where
  object : ∃ j, h.get? q = some (.javaObject j) ∧ j.kind = .iterator ∧ j.list = some l ∧
    j.value = .num n
  list : ArrayAt h l a

/-- The position of the iterator at `q`. -/
def position (h : Heap) (q : Ref) : ℤ :=
  match h.get? q with
  | some (.javaObject j) => j.value.asNum
  | _ => 0

section

variable {h : Heap} {q l s : Ref} {a : ArrayObj} {j j' : JavaObject} {n m : ℕ}

theorem IteratorAt.position (hi : IteratorAt h q l a n) : h.position q = n := by
  obtain ⟨j, hj, -, -, hvalue⟩ := hi.object
  rw [Heap.position, hj]
  dsimp only
  rw [hvalue, Value.asNum]

theorem array?_setJava (hq : h.get? q = some (.javaObject j)) (s : Ref) :
    (h.set q (.javaObject j')).array? s = h.array? s := by
  rw [Heap.array?, Heap.array?, get?_set hq]
  split_ifs with hs
  · rw [← hs, hq]
  · rfl

theorem cell?_setJava (hq : h.get? q = some (.javaObject j)) (w : Value) :
    (h.set q (.javaObject j')).cell? w = h.cell? w := by
  cases w with
  | obj s =>
    rw [cell?_obj, cell?_obj, get?_set hq]
    split_ifs with hs
    · rw [← hs, hq]
    · rfl
  | null => rfl
  | bool b => rfl
  | num n => rfl

/-- An iterator is not part of what an array shows. -/
theorem ArrayAt.setJava (ha : ArrayAt h l a) (hq : h.get? q = some (.javaObject j)) :
    ArrayAt (h.set q (.javaObject j')) l a where
  array := by rw [array?_setJava hq, ha.array]
  sized := ha.sized
  known w hw := (ha.known w hw).mono (Nat.le_of_eq (freshRef_set h q _).symm)
  ordered := ha.ordered.congr (array?_setJava hq)

theorem ArrayAt.shown_setJava (ha : ArrayAt h l a) (hq : h.get? q = some (.javaObject j)) :
    (h.set q (.javaObject j')).shown l = h.shown l := by
  rw [(ha.setJava hq).shown, ha.shown]
  exact List.map_congr_left fun w _ => read_congr (cell?_setJava hq) w

/-- The iterator moves. -/
theorem IteratorAt.move (ha : ArrayAt h l a) (hq : h.get? q = some (.javaObject j))
    (hkind : j.kind = .iterator) (hlist : j.list = some l) (m : ℕ) :
    IteratorAt (h.set q (.javaObject { j with value := .num m })) q l a m where
  object := ⟨{ j with value := .num m }, by rw [get?_set hq, if_pos rfl], hkind, hlist, rfl⟩
  list := ha.setJava hq

end

end Heap

namespace VM

/-! ### One step -/

section Step

variable (sizeof : ObjType → ℕ) (fmt : Printf) (valueOnly : Bool) (offset : ℕ) {vm : VM}
  {q l : Ref} {a : ArrayObj} {n : ℤ} {p : ℕ}

/-- A new cell in an array leaves the other objects alone. -/
theorem get?_elementCell {j : JavaObject} (ha : vm.objects.array? l = some a)
    (hq : vm.objects.get? q = some (.javaObject j)) (i : ℕ) :
    (vm.elementCell sizeof l a i).1.objects.get? q = some (.javaObject j) := by
  have hlq : l ≠ q := by
    rintro rfl
    rw [Heap.get?_of_array? ha] at hq
    cases hq
  have hfresh : vm.objects.freshRef ≠ q := by
    rintro rfl
    rw [Heap.get?_freshRef] at hq
    cases hq
  unfold elementCell
  dsimp only
  split_ifs
  · exact hq
  · show (vm.objects.withCell l a i).get? q = _
    rw [Heap.withCell, Heap.get?_set_ne hlq, Heap.get?_cons, if_neg hfresh, hq]

/-- The iterator that a step goes by is that of its slot when the frame remembers the list. -/
def stepIndex (l : Ref) (p n : ℤ) (f : CallFrame) : ℤ :=
  if f.foreachIterationArray ≠ some l then p else n

theorem foreachNext_iterator (hh : AtHead vm q n) (hi : Heap.IteratorAt vm.objects q l a p) :
    ∃ f j, vm.currentFrame? = some f ∧ vm.objects.get? q = some (.javaObject j) ∧
      j.kind = .iterator ∧ j.list = some l ∧
      foreachNext sizeof fmt valueOnly offset vm =
        (let i := stepIndex l p n f
        ((vm.modifyFrame fun _ => foreachReset f).setSlot (vm.top - 1) (.num i)).arrayStep sizeof
          offset (some (q, j)) l a i (foreachReset f)) := by
  obtain ⟨f, hf, -, heq⟩ := hh.collectionStep sizeof fmt valueOnly offset
  obtain ⟨s, hs⟩ := hh.stack
  obtain ⟨j, hj, hkind, hlist, hvalue⟩ := hi.object
  refine ⟨f, j, hf, hj, hkind, hlist, ?_⟩
  have hs' : (vm.modifyFrame fun _ => foreachReset f).stack = s ++ [.obj q, .num n] := hs
  rw [heq, VM.collectionStep, peek_zero hs', peek_one hs']
  dsimp only
  rw [modifyFrame_objects, hj]
  dsimp only
  rw [hkind, hlist]
  dsimp only
  rw [Heap.get?_of_array? hi.list.array, hvalue]
  rfl

/-- A step that goes by the position, with a version of the list that is up to date. -/
theorem iteratorNext_eq (hh : AtHead vm q n) (hi : Heap.IteratorAt vm.objects q l a p)
    (hindex : ∀ f, vm.currentFrame? = some f → stepIndex l p n f = p)
    (hnoted : p = 0 ∨ ∀ f, vm.currentFrame? = some f → Noted f l a) :
    ∃ j, vm.objects.get? q = some (.javaObject j) ∧ j.kind = .iterator ∧ j.list = some l ∧
      foreachNext sizeof fmt valueOnly offset vm =
        (let vm := (vm.setSlot (vm.top - 1) (.num p)).modifyFrame (notedFrame l a p)
        if p < a.count then
          let (vm, value) := vm.elementCell sizeof l a p
          ((vm.modifyFrame (recordElement l p (vm.top - 1) value)).setObj q
            (.javaObject { j with value := .num (p + 1 : ℕ) })).enterForeach false p (.num p) value
        else vm.leaveForeach offset) := by
  obtain ⟨f, j, hf, hj, hkind, hlist, heq⟩ := foreachNext_iterator sizeof fmt valueOnly offset hh hi
  obtain ⟨-, hversion, hvalid⟩ := noteArray_of_noted (a := a) (r := l) (f := foreachReset f) (n := p)
    (hnoted.imp (by simp) fun hall => hall f hf)
  have hframe : ((vm.setSlot (vm.top - 1) (.num p)).modifyFrame fun _ => noteArray l a p
      (foreachReset f)) = (vm.setSlot (vm.top - 1) (.num p)).modifyFrame (notedFrame l a p) :=
    modifyFrame_of_current (show (vm.setSlot (vm.top - 1) (.num p)).currentFrame? = some f from hf)
      (notedFrame l a p)
  have hset : (((vm.modifyFrame fun _ => foreachReset f).setSlot (vm.top - 1) (.num p)).modifyFrame
      fun _ => noteArray l a p (foreachReset f)) =
      (vm.setSlot (vm.top - 1) (.num p)).modifyFrame (notedFrame l a p) := by
    rw [← hframe]
    exact modifyFrame_modifyFrame (vm.setSlot (vm.top - 1) (.num p)) (fun _ => foreachReset f)
      fun _ => noteArray l a p (foreachReset f)
  refine ⟨j, hj, hkind, hlist, ?_⟩
  rw [heq, hindex f hf]
  dsimp only
  rw [arrayStep, hset]
  dsimp only
  rw [if_neg (by simp [hvalid]), if_neg fun hstale => hstale.2 hversion]
  simp only [Int.natCast_nonneg, Nat.cast_lt, true_and, Int.toNat_natCast]
  rfl

/-- A round of a loop over the iterator at `q`, for the element `p` of its list. -/
structure IteratorRound (vm vm' : VM) (q l : Ref) (a : ArrayObj) (p : ℕ) (value : Value) : Prop where
  stack : vm'.stack = vm.stack.set (vm.stack.length - 1) (.num (p + 1))
  frames : vm'.frames =
    vm.frames.modify (vm.frames.length - 1) (roundFrame l a p (vm.top - 1) value)
  iterator : ∃ es, Heap.IteratorAt vm'.objects q l { a with elements := es } (p + 1)
  shown : vm'.objects.shown l = vm.objects.shown l
  value : (vm.objects.shown l)[p]? = some (vm'.objects.read value)

theorem iteratorNext_enter (hh : AtHead vm q n) (hi : Heap.IteratorAt vm.objects q l a p)
    (hindex : ∀ f, vm.currentFrame? = some f → stepIndex l p n f = p)
    (hnoted : p = 0 ∨ ∀ f, vm.currentFrame? = some f → Noted f l a) (hp : p < a.count) :
    ∃ value vm', foreachNext sizeof fmt valueOnly offset vm = .enter false (.num p) value vm' ∧
      IteratorRound vm vm' q l a p value := by
  obtain ⟨j, hj, hkind, hlist, heq⟩ :=
    iteratorNext_eq sizeof fmt valueOnly offset hh hi hindex hnoted
  dsimp only at heq
  rw [if_pos hp] at heq
  -- the element becomes a cell, and the iterator moves
  obtain ⟨hstack, hframes, harrays, hshown, hvalue⟩ := elementCell_spec sizeof
    (show Heap.ArrayAt ((vm.setSlot (vm.top - 1) (.num p)).modifyFrame
      (notedFrame l a p)).objects l a from hi.list) hp
  have hobject : (((vm.setSlot (vm.top - 1) (.num p)).modifyFrame
      (notedFrame l a p)).elementCell sizeof l a p).1.objects.get? q = some (.javaObject j) :=
    @get?_elementCell sizeof ((vm.setSlot (vm.top - 1) (.num p)).modifyFrame (notedFrame l a p)) q l a
      j hi.list.array hj p
  generalize ((vm.setSlot (vm.top - 1) (.num p)).modifyFrame (notedFrame l a p)).elementCell sizeof
    l a p = c at heq hstack hframes harrays hshown hvalue hobject
  obtain ⟨vm', value⟩ := c
  dsimp only at heq hstack hframes harrays hshown hvalue hobject
  obtain ⟨es, hes⟩ := harrays l a hi.list
  have hslots : vm'.stack = vm.stack.set (vm.stack.length - 1) (.num p) := by
    rw [hstack]
    show vm.stack.set (vm.top - 1).toNat _ = _
    rw [toNat_top_sub_one]
  have htop : vm'.top = vm.top := by rw [top, hslots, List.length_set, top]
  refine ⟨_, _, heq, ?_, ?_, ⟨es, Heap.IteratorAt.move hes hobject hkind hlist _⟩, ?_, ?_⟩
  · show vm'.stack.set (vm'.top - 1).toNat _ = _
    rw [toNat_top_sub_one, hslots, List.length_set, List.set_set]
  · show vm'.frames.modify _ _ = _
    rw [hframes, htop]
    simp only [modifyFrame, setSlot, List.length_modify, List.modify_modify_eq]
    rfl
  · exact (hes.shown_setJava hobject).trans hshown
  · show _ = some ((vm'.objects.set q _).read value)
    rw [Heap.read_congr (Heap.cell?_setJava hobject)]
    exact hvalue

theorem iteratorNext_exit (hh : AtHead vm q n) (hi : Heap.IteratorAt vm.objects q l a p)
    (hindex : ∀ f, vm.currentFrame? = some f → stepIndex l p n f = p)
    (hnoted : p = 0 ∨ ∀ f, vm.currentFrame? = some f → Noted f l a) (hp : a.count ≤ p) :
    ∃ vm' g, foreachNext sizeof fmt valueOnly offset vm = .exit vm' ∧
      vm'.stack = vm.stack.set (vm.stack.length - 1) (.num p) ∧
      vm'.frames = vm.frames.modify (vm.frames.length - 1) g ∧
      (∀ f, (g f).foreachIterationArray = none) ∧ vm'.objects = vm.objects := by
  obtain ⟨j, -, -, -, heq⟩ := iteratorNext_eq sizeof fmt valueOnly offset hh hi hindex hnoted
  dsimp only at heq
  rw [if_neg (Nat.not_lt.2 hp)] at heq
  refine ⟨_, fun f => { notedFrame l a p f with
    ip := (notedFrame l a p f).ip + offset
    foreachIterationArray := none
    foreachInvalidated := false }, heq, ?_, ?_, fun f => rfl, rfl⟩
  · show vm.stack.set (vm.top - 1).toNat _ = _
    rw [toNat_top_sub_one]
  · simp [modifyFrame, setSlot, List.modify_modify_eq]
    rfl

end Step

/-! ### Builtins -/

section Builtin

variable {C : CLib} {call : VM → VM × Option Value} {drain : VM → Ref → VM × Option (List Value)}
  {vm vm' : VM} {q l : Ref} {a : ArrayObj} {p : ℕ} {it it' : StdlibIterator} {value : Value}
  {values : List Value}

/-- What a builtin gets with the next element. -/
theorem stdlibIteratorNext_iterator (hi : Heap.IteratorAt vm.objects q l a p)
    (hsource : it.source = .obj q)
    (hnext : stdlibIteratorNext call vm it = (vm', it', some value)) :
    p < a.count ∧ value = a.elements.getD p .null ∧
      ∃ j, vm.objects.get? q = some (.javaObject j) ∧ j.kind = .iterator ∧ j.list = some l ∧
        vm' = vm.setObj q (.javaObject { j with value := .num (p + 1 : ℕ) }) := by
  obtain ⟨j, hj, hkind, hlist, hvalue⟩ := hi.object
  have hindex : j.value.asNum = p := by rw [hvalue, Value.asNum]
  unfold stdlibIteratorNext at hnext
  by_cases hdone : it.done = true
  · rw [if_pos hdone] at hnext
    simp at hnext
  rw [if_neg hdone, hsource] at hnext
  dsimp only at hnext
  rw [hj] at hnext
  dsimp only at hnext
  rw [hkind, hlist] at hnext
  dsimp only at hnext
  rw [Heap.get?_of_array? hi.list.array] at hnext
  dsimp only at hnext
  by_cases hend : j.value.asNum < 0 ∨ j.value.asNum ≥ a.count
  · rw [if_pos hend] at hnext
    simp at hnext
  rw [if_neg hend, hindex, Int.toNat_natCast] at hnext
  simp only [Prod.mk.injEq, Option.some.injEq] at hnext
  obtain ⟨rfl, -, rfl⟩ := hnext
  rw [hindex] at hend
  exact ⟨by omega, rfl, j, hj, hkind, hlist, by push_cast; rw [← hkind, ← hlist]⟩

/-- What a builtin gets that collects the rest. -/
theorem collectIteratorValues_iterator (hi : Heap.IteratorAt vm.objects q l a p)
    (hcollect : collectIteratorValues C drain vm (.obj q) = .values vm' values) :
    values = a.live.drop p ∧
      ∃ j, vm.objects.get? q = some (.javaObject j) ∧ j.kind = .iterator ∧ j.list = some l ∧
        vm' = vm.setObj q (.javaObject { j with value := .num (max p a.count : ℕ) }) := by
  obtain ⟨j, hj, hkind, hlist, hvalue⟩ := hi.object
  unfold collectIteratorValues at hcollect
  dsimp only at hcollect
  rw [hj] at hcollect
  dsimp only at hcollect
  rw [hkind, hlist] at hcollect
  dsimp only at hcollect
  rw [Heap.get?_of_array? hi.list.array, hvalue] at hcollect
  dsimp only [Value.asNum] at hcollect
  rw [Int.toNat_natCast, Collected.values.injEq] at hcollect
  obtain ⟨rfl, rfl⟩ := hcollect
  exact ⟨rfl, j, hj, hkind, hlist, by rw [← hkind, ← hlist]⟩

end Builtin

/-! ### Loops and builtins over one iterator -/

/-- An element that was handed out: its index, what was read of it, and what the list showed at
the index then. -/
structure Handed where
  index : ℕ
  value : Value
  shown : Option Value

/-- The element `i` of the list at `l` is handed out as `value`. -/
def handed (l : Ref) (vm : VM) (i : ℕ) (value : Value) : Handed :=
  ⟨i, value, (vm.objects.shown l)[i]?⟩

/-- Code between the steps.  It leaves the iterator at `q` alone, does not change the list at `l`,
and keeps the version of the list that the frame `k` has noted. -/
structure Aside (k : ℕ) (q l : Ref) (loops : List ℕ) (vm vm' : VM) : Prop where
  frame : ∀ f a, vm.frames[k]? = some f → vm.objects.array? l = some a →
    ∃ f', vm'.frames[k]? = some f' ∧ (Noted f l a → Noted f' l a)
  slots : ∀ slot ∈ loops, vm'.stack[slot]? = vm.stack[slot]? ∧
    vm'.stack[slot + 1]? = vm.stack[slot + 1]?
  iterator : vm'.objects.get? q = vm.objects.get? q
  list : ∀ a, Heap.ArrayAt vm.objects l a → ∃ b, Heap.ArrayAt vm'.objects l b ∧
    b.count = a.count ∧ b.mutationVersion = a.mutationVersion

section

variable (sizeof : ObjType → ℕ) (fmt : Printf) (C : CLib) (call : VM → VM × Option Value)
  (drain : VM → Ref → VM × Option (List Value)) (ok : VM → ℕ → Prop) (k : ℕ) (q l : Ref)

/-- Loops in the frame `k` over the iterator at `q` of the list at `l`, and builtins that consume
it.  There are the slots of the loops in progress, the innermost one first, and the elements that
were handed out so far. -/
inductive IteratorRun : List ℕ → List Handed → VM → Prop where
  | start {vm : VM} {f : CallFrame} {a : ArrayObj} (hframe : vm.frames[k]? = some f)
      (hnew : Heap.IteratorAt vm.objects q l a 0) : IteratorRun [] [] vm
  | aside {loops : List ℕ} {log : List Handed} {vm vm' : VM} (hrun : IteratorRun loops log vm)
      (haside : Aside k q l loops vm vm') : IteratorRun loops log vm'
  | enter {loops : List ℕ} {log : List Handed} {vm : VM} (hrun : IteratorRun loops log vm)
      (hroom : vm.stack.length + 2 ≤ stackMax) :
      IteratorRun (vm.stack.length :: loops) log ((vm.push (.obj q)).push (.num 0))
  | round {slot : ℕ} {loops : List ℕ} {log : List Handed} {vm vm' : VM} {valueOnly : Bool}
      {offset : ℕ} {warned : Bool} {key value : Value} (hrun : IteratorRun (slot :: loops) log vm)
      (hnext : AtNext ⟨k, slot, q⟩ vm) (hok : ok vm slot)
      (hstep : foreachNext sizeof fmt valueOnly offset vm = .enter warned key value vm') :
      IteratorRun (slot :: loops)
        (log ++ [handed l vm key.asNum.toNat (vm'.objects.read value)]) vm'
  | exit {slot : ℕ} {loops : List ℕ} {log : List Handed} {vm vm' : VM} {valueOnly : Bool}
      {offset : ℕ} (hrun : IteratorRun (slot :: loops) log vm) (hnext : AtNext ⟨k, slot, q⟩ vm)
      (hok : ok vm slot) (hstep : foreachNext sizeof fmt valueOnly offset vm = .exit vm') :
      IteratorRun loops log { vm' with stack := vm'.stack.take slot }
  | leave {slot : ℕ} {loops : List ℕ} {log : List Handed} {vm : VM}
      (hrun : IteratorRun (slot :: loops) log vm) :
      IteratorRun loops log { vm with stack := vm.stack.take slot }
  | take {loops : List ℕ} {log : List Handed} {vm vm' : VM} {it it' : StdlibIterator}
      {value : Value} (hrun : IteratorRun loops log vm) (hsource : it.source = .obj q)
      (hnext : stdlibIteratorNext call vm it = (vm', it', some value)) :
      IteratorRun loops
        (log ++ [handed l vm (vm.objects.position q).toNat (vm.objects.read value)]) vm'
  | collect {loops : List ℕ} {log : List Handed} {vm vm' : VM} {values : List Value}
      (hrun : IteratorRun loops log vm)
      (hcollect : collectIteratorValues C drain vm (.obj q) = .values vm' values) :
      IteratorRun loops (log ++ (values.zipIdx (vm.objects.position q).toNat).map fun e =>
        handed l vm e.2 (vm.objects.read e.1)) vm'

/-- In a run whose steps are `ok`, the elements of the list are handed out in order, each at most
once, and all of them when the iterator is exhausted or a loop over it ends. -/
def DeliversOnce : Prop :=
  ∀ loops log vm, IteratorRun sizeof fmt C call drain ok k q l loops log vm →
    log.map Handed.index <+: List.range (vm.objects.shown l).length ∧
    (∀ e ∈ log, e.shown = some e.value) ∧
    ((vm.objects.shown l).length ≤ vm.objects.position q →
      log.map Handed.index = List.range (vm.objects.shown l).length) ∧
    ∀ slot rest valueOnly offset vm', loops = slot :: rest → AtNext ⟨k, slot, q⟩ vm → ok vm slot →
      foreachNext sizeof fmt valueOnly offset vm = .exit vm' →
      log.map Handed.index = List.range (vm.objects.shown l).length

end

/-- When the frame remembers the list, the slot of the loop has the position of the iterator. -/
def Synced (k : ℕ) (q l : Ref) (vm : VM) (slot : ℕ) : Prop :=
  ∀ f, vm.frames[k]? = some f → f.foreachIterationArray = some l →
    vm.stack[slot + 1]? = some (.num (vm.objects.position q))

/-- What holds along a run, with `p` elements of the list `a` handed out. -/
structure IteratorInv (k : ℕ) (q l : Ref) (loops : List ℕ) (log : List Handed) (vm : VM)
    (a : ArrayObj) (p : ℕ) : Prop where
  iterator : Heap.IteratorAt vm.objects q l a p
  bound : p ≤ a.count
  indices : log.map Handed.index = List.range p
  shown : ∀ e ∈ log, e.shown = some e.value
  frame : ∃ f, vm.frames[k]? = some f ∧
    (Noted f l a ∨ ∀ slot ∈ loops, vm.stack[slot + 1]? = some (.num 0))
  opened : ∀ slot ∈ loops, ∃ n : ℤ, InProgress ⟨k, slot, q⟩ vm n
  apart : loops.Pairwise fun slot m => m + 2 ≤ slot

section Inv

variable {sizeof : ObjType → ℕ} {fmt : Printf} {C : CLib} {call : VM → VM × Option Value}
  {drain : VM → Ref → VM × Option (List Value)} {k : ℕ} {q l : Ref} {loops rest : List ℕ}
  {log : List Handed} {vm vm' : VM} {a : ArrayObj} {p slot offset : ℕ} {valueOnly : Bool}

theorem IteratorInv.shown_length (hi : IteratorInv k q l loops log vm a p) :
    (vm.objects.shown l).length = a.count := hi.iterator.list.length_shown

/-- The loops around the innermost one are below it on the stack. -/
theorem IteratorInv.below (hi : IteratorInv k q l (slot :: rest) log vm a p) {m : ℕ} (hm : m ∈ rest) :
    m + 2 ≤ slot := (List.pairwise_cons.1 hi.apart).1 m hm

theorem InProgress.steady {c : LoopAt} {n : ℤ} (hp : InProgress c vm n)
    (hframes : c.frame < vm'.frames.length) (hcollection : vm'.stack[c.slot]? = vm.stack[c.slot]?)
    (hiterator : vm'.stack[c.slot + 1]? = vm.stack[c.slot + 1]?) : InProgress c vm' n :=
  ⟨hframes, hcollection.trans hp.collection, hiterator.trans hp.iterator⟩

theorem Noted.congr {f : CallFrame} {b : ArrayObj} (hn : Noted f l a)
    (hversion : b.mutationVersion = a.mutationVersion) : Noted f l b := fun hf =>
  ⟨(hn hf).1.trans hversion.symm, (hn hf).2⟩

/-- The loops that stay when the stack changes above their slots, and the frame by `g`. -/
theorem IteratorInv.keep {loops' : List ℕ} {log' : List Handed} {b : ArrayObj} {m : ℕ}
    {f' : CallFrame} (hi : IteratorInv k q l loops log vm a p)
    (hloops : loops'.Sublist loops) (hiterator : Heap.IteratorAt vm'.objects q l b m)
    (hbound : m ≤ b.count) (hindices : log'.map Handed.index = List.range m)
    (hshown : ∀ e ∈ log', e.shown = some e.value) (hframe : vm'.frames[k]? = some f')
    (hnoted : Noted f' l b ∨ ∀ slot ∈ loops', vm.stack[slot + 1]? = some (.num 0))
    (hstack : ∀ slot ∈ loops', vm'.stack[slot]? = vm.stack[slot]? ∧
      vm'.stack[slot + 1]? = vm.stack[slot + 1]?) : IteratorInv k q l loops' log' vm' b m where
  iterator := hiterator
  bound := hbound
  indices := hindices
  shown := hshown
  frame := ⟨f', hframe, hnoted.imp_right fun hzero slot hslot =>
    (hstack slot hslot).2.trans (hzero slot hslot)⟩
  opened slot hslot := by
    obtain ⟨n, hn⟩ := hi.opened slot (hloops.subset hslot)
    exact ⟨n, hn.steady (List.getElem?_eq_some_iff.1 hframe).1 (hstack slot hslot).1
      (hstack slot hslot).2⟩
  apart := hi.apart.sublist hloops

theorem IteratorInv.aside (hi : IteratorInv k q l loops log vm a p)
    (haside : Aside k q l loops vm vm') : ∃ b, IteratorInv k q l loops log vm' b p := by
  obtain ⟨f, hf, hnoted⟩ := hi.frame
  obtain ⟨f', hf', hnote⟩ := haside.frame f a hf hi.iterator.list.array
  obtain ⟨b, hb, hcount, hversion⟩ := haside.list a hi.iterator.list
  obtain ⟨j, hj, hobject⟩ := hi.iterator.object
  exact ⟨b, hi.keep (List.Sublist.refl _) ⟨⟨j, haside.iterator.trans hj, hobject⟩, hb⟩
    (hcount.symm ▸ hi.bound) hi.indices hi.shown hf'
    (hnoted.imp_left fun hn => (hnote hn).congr hversion) haside.slots⟩

theorem IteratorInv.leave (hi : IteratorInv k q l (slot :: rest) log vm a p) :
    IteratorInv k q l rest log { vm with stack := vm.stack.take slot } a p := by
  obtain ⟨f, hf, hnoted⟩ := hi.frame
  refine hi.keep (List.sublist_cons_self _ _) hi.iterator hi.bound hi.indices hi.shown hf
    (hnoted.imp_right fun hzero m hm => hzero m (List.mem_cons_of_mem _ hm)) fun m hm => ?_
  have hbelow := hi.below hm
  exact ⟨List.getElem?_take_of_lt (by omega), List.getElem?_take_of_lt (by omega)⟩

theorem IteratorInv.enter (hi : IteratorInv k q l loops log vm a p)
    (hroom : vm.stack.length + 2 ≤ stackMax) :
    IteratorInv k q l (vm.stack.length :: loops) log ((vm.push (.obj q)).push (.num 0)) a p := by
  have hpush : (vm.push (.obj q)).push (.num 0) =
      { vm with stack := vm.stack ++ [.obj q] ++ [.num 0] } := by
    rw [push_of_lt vm _ (by omega), push_of_lt _ _ (by simp; omega)]
  have hbelow : ∀ slot ∈ loops, slot + 1 < vm.stack.length := fun slot hslot => by
    obtain ⟨n, hn⟩ := hi.opened slot hslot
    exact (List.getElem?_eq_some_iff.1 hn.iterator).1
  have hstack : ∀ slot ∈ loops, (vm.stack ++ [Value.obj q] ++ [.num 0])[slot]? = vm.stack[slot]? ∧
      (vm.stack ++ [Value.obj q] ++ [.num 0])[slot + 1]? = vm.stack[slot + 1]? := by
    intro slot hslot
    have hlt := hbelow slot hslot
    rw [List.append_assoc, List.getElem?_append_left (by omega), List.getElem?_append_left hlt]
    exact ⟨rfl, rfl⟩
  obtain ⟨f, hf, hnoted⟩ := hi.frame
  have hiterator : (vm.stack ++ [Value.obj q] ++ [.num 0])[vm.stack.length + 1]? = some (.num 0) := by
    simp
  rw [hpush]
  refine ⟨hi.iterator, hi.bound, hi.indices, hi.shown, ⟨f, hf, ?_⟩, ?_,
    List.pairwise_cons.2 ⟨fun m hm => hbelow m hm, hi.apart⟩⟩
  · refine hnoted.imp_right fun hzero slot hslot => ?_
    rcases List.mem_cons.1 hslot with rfl | hslot
    · exact hiterator
    · exact (hstack slot hslot).2.trans (hzero slot hslot)
  · intro slot hslot
    rcases List.mem_cons.1 hslot with rfl | hslot
    · exact ⟨0, (List.getElem?_eq_some_iff.1 hf).1, by simp, hiterator⟩
    · obtain ⟨n, hn⟩ := hi.opened slot hslot
      exact ⟨n, hn.steady hn.frame (hstack slot hslot).1 (hstack slot hslot).2⟩

/-- The innermost loop is about to make a step that goes by the position. -/
theorem IteratorInv.head (hi : IteratorInv k q l (slot :: rest) log vm a p)
    (hnext : AtNext ⟨k, slot, q⟩ vm) (hsynced : Synced k q l vm slot) :
    ∃ n f, vm.frames[k]? = some f ∧ AtHead vm q n ∧
      (∀ f, vm.currentFrame? = some f → stepIndex l p n f = p) ∧
      (p = 0 ∨ ∀ f, vm.currentFrame? = some f → Noted f l a) := by
  obtain ⟨n, hn⟩ := hi.opened slot List.mem_cons_self
  obtain ⟨f, hf, hnoted⟩ := hi.frame
  have hcurrent : vm.currentFrame? = some f := hnext.currentFrame?.trans hf
  -- when the frame remembers the list, the slot of the loop has the position
  have hslot : f.foreachIterationArray = some l → n = p := by
    intro hlist
    have hsame := hn.iterator.symm.trans (hsynced f hf hlist)
    rw [hi.iterator.position] at hsame
    exact Value.num.inj (Option.some.inj hsame)
  refine ⟨n, f, hf, hn.atHead hnext, fun g hg => ?_, ?_⟩
  · obtain rfl := Option.some.inj (hcurrent.symm.trans hg)
    rw [stepIndex]
    split_ifs with hother
    · rfl
    · exact hslot (not_not.1 hother)
  · by_cases hlist : f.foreachIterationArray = some l
    · rcases hnoted with hnoted | hzero
      · exact .inr fun g hg => Option.some.inj (hcurrent.symm.trans hg) ▸ hnoted
      · -- no loop over the iterator has made a step, so nothing was handed out
        have hstart := hn.iterator.symm.trans (hzero slot List.mem_cons_self)
        have hp : (p : ℤ) = 0 := (hslot hlist).symm.trans (Value.num.inj (Option.some.inj hstart))
        exact .inl (by omega)
    · refine .inr fun g hg hno => ?_
      obtain rfl := Option.some.inj (hcurrent.symm.trans hg)
      exact absurd hno hlist

theorem notedFrame_noted (hnoted : p = 0 ∨ ∀ f, vm.currentFrame? = some f → Noted f l a)
    {f : CallFrame} (hf : vm.currentFrame? = some f) : Noted (notedFrame l a p f) l a := fun _ =>
  (noteArray_of_noted (f := foreachReset f) (hnoted.imp (by simp) fun hall => hall f hf)).2

theorem IteratorInv.round {warned : Bool} {key value : Value}
    (hi : IteratorInv k q l (slot :: rest) log vm a p) (hnext : AtNext ⟨k, slot, q⟩ vm)
    (hsynced : Synced k q l vm slot)
    (hstep : foreachNext sizeof fmt valueOnly offset vm = .enter warned key value vm') :
    ∃ b, IteratorInv k q l (slot :: rest)
      (log ++ [handed l vm key.asNum.toNat (vm'.objects.read value)]) vm' b (p + 1) := by
  obtain ⟨n, f, hf, hh, hindex, hnoted⟩ := hi.head hnext hsynced
  rcases Nat.lt_or_ge p a.count with hp | hp
  · obtain ⟨value', vm'', hstep', hround⟩ :=
      iteratorNext_enter sizeof fmt valueOnly offset hh hi.iterator hindex hnoted hp
    rw [hstep] at hstep'
    cases hstep'
    obtain ⟨hstack, hframes, ⟨es, hiterator⟩, -, hvalue⟩ := hround
    have hslots : vm.stack.length - 1 = slot + 1 := by
      rw [hnext.stack]
      rfl
    have hlast : vm.frames.length - 1 = k := by rw [hnext.frames, Nat.add_sub_cancel]
    rw [hslots] at hstack
    rw [hlast] at hframes
    have hframe : vm'.frames[k]? = some (roundFrame l a p (vm.top - 1) value f) := by
      rw [hframes, List.getElem?_modify_eq, hf]
      rfl
    have hnote : Noted (roundFrame l a p (vm.top - 1) value f) l a :=
      notedFrame_noted hnoted (hnext.currentFrame?.trans hf)
    refine ⟨_, hiterator, hp, ?_, ?_, ⟨_, hframe, .inl hnote⟩, fun m hm => ?_, hi.apart⟩
    · rw [List.map_append, hi.indices, List.range_succ]
      rfl
    · intro e he
      rcases List.mem_append.1 he with he | he
      · exact hi.shown e he
      · rw [List.mem_singleton.1 he]
        exact hvalue
    · obtain ⟨i, hm'⟩ := hi.opened m hm
      have hlength : vm'.frames.length = vm.frames.length := by rw [hframes, List.length_modify]
      rcases List.mem_cons.1 hm with rfl | hm
      · exact ⟨_, hm'.setIterator hstack hlength⟩
      · have hbelow := hi.below hm
        refine ⟨i, hm'.steady (by rw [hlength]; exact hm'.frame) ?_ ?_⟩
        · rw [hstack, List.getElem?_set_ne (by simp only; omega)]
        · rw [hstack, List.getElem?_set_ne (by simp only; omega)]
  · obtain ⟨vm'', g, hstep', -⟩ :=
      iteratorNext_exit sizeof fmt valueOnly offset hh hi.iterator hindex hnoted hp
    rw [hstep] at hstep'
    cases hstep'

/-- A loop ends when all elements were handed out. -/
theorem IteratorInv.ended (hi : IteratorInv k q l (slot :: rest) log vm a p)
    (hnext : AtNext ⟨k, slot, q⟩ vm) (hsynced : Synced k q l vm slot)
    (hstep : foreachNext sizeof fmt valueOnly offset vm = .exit vm') : p = a.count := by
  obtain ⟨n, f, -, hh, hindex, hnoted⟩ := hi.head hnext hsynced
  by_contra hne
  have hp : p < a.count := Nat.lt_of_le_of_ne hi.bound hne
  obtain ⟨value, vm'', hstep', -⟩ :=
    iteratorNext_enter sizeof fmt valueOnly offset hh hi.iterator hindex hnoted hp
  rw [hstep] at hstep'
  cases hstep'

theorem IteratorInv.exit (hi : IteratorInv k q l (slot :: rest) log vm a p)
    (hnext : AtNext ⟨k, slot, q⟩ vm) (hsynced : Synced k q l vm slot)
    (hstep : foreachNext sizeof fmt valueOnly offset vm = .exit vm') :
    IteratorInv k q l rest log { vm' with stack := vm'.stack.take slot } a p := by
  obtain ⟨n, f, hf, hh, hindex, hnoted⟩ := hi.head hnext hsynced
  have hp : a.count ≤ p := Nat.le_of_eq (hi.ended hnext hsynced hstep).symm
  obtain ⟨vm'', g, hstep', hstack, hframes, hnone, hobjects⟩ :=
    iteratorNext_exit sizeof fmt valueOnly offset hh hi.iterator hindex hnoted hp
  rw [hstep] at hstep'
  cases hstep'
  have hlast : vm.frames.length - 1 = k := by rw [hnext.frames, Nat.add_sub_cancel]
  rw [hlast] at hframes
  have hframe : vm'.frames[k]? = some (g f) := by
    rw [hframes, List.getElem?_modify_eq, hf]
    rfl
  refine hi.keep (List.sublist_cons_self _ _) ?_ hi.bound hi.indices hi.shown hframe ?_ ?_
  · show Heap.IteratorAt vm'.objects q l a p
    rw [hobjects]
    exact hi.iterator
  · refine .inl fun hno => ?_
    rw [hnone] at hno
    cases hno
  · intro m hm
    have hbelow := hi.below hm
    have hslots : vm.stack.length - 1 = slot + 1 := by
      rw [hnext.stack]
      rfl
    show (vm'.stack.take slot)[m]? = _ ∧ (vm'.stack.take slot)[m + 1]? = _
    rw [List.getElem?_take_of_lt (by omega), List.getElem?_take_of_lt (by omega), hstack, hslots,
      List.getElem?_set_ne (by omega), List.getElem?_set_ne (by omega)]
    exact ⟨rfl, rfl⟩

theorem range_append_rest {n : ℕ} (hle : p ≤ n) :
    List.range p ++ List.range' p (n - p) = List.range n := by
  obtain ⟨m, rfl⟩ := Nat.exists_eq_add_of_le hle
  rw [Nat.add_sub_cancel_left, List.range_add, List.range'_eq_map_range]

/-- A builtin moves the iterator. -/
theorem IteratorInv.moved {j : JavaObject} {m : ℕ} {log' : List Handed}
    (hi : IteratorInv k q l loops log vm a p) (hj : vm.objects.get? q = some (.javaObject j))
    (hkind : j.kind = .iterator) (hlist : j.list = some l) (hbound : m ≤ a.count)
    (hindices : (log ++ log').map Handed.index = List.range m)
    (hshown : ∀ e ∈ log', e.shown = some e.value) :
    IteratorInv k q l loops (log ++ log')
      (vm.setObj q (.javaObject { j with value := .num m })) a m := by
  obtain ⟨f, hf, hnoted⟩ := hi.frame
  refine hi.keep (List.Sublist.refl _) (.move hi.iterator.list hj hkind hlist m) hbound hindices
    (fun e he => ?_) hf hnoted fun _ _ => ⟨rfl, rfl⟩
  rcases List.mem_append.1 he with he | he
  · exact hi.shown e he
  · exact hshown e he

theorem IteratorInv.take {it it' : StdlibIterator} {value : Value}
    (hi : IteratorInv k q l loops log vm a p) (hsource : it.source = .obj q)
    (hnext : stdlibIteratorNext call vm it = (vm', it', some value)) :
    IteratorInv k q l loops
      (log ++ [handed l vm (vm.objects.position q).toNat (vm.objects.read value)]) vm' a (p + 1) := by
  obtain ⟨hp, rfl, j, hj, hkind, hlist, rfl⟩ := stdlibIteratorNext_iterator hi.iterator hsource hnext
  rw [hi.iterator.position, Int.toNat_natCast]
  refine hi.moved hj hkind hlist hp ?_ fun e he => ?_
  · rw [List.map_append, hi.indices, List.range_succ]
    rfl
  · rw [List.mem_singleton.1 he, handed, hi.iterator.list.shown, List.getElem?_map,
      hi.iterator.list.getElem? hp]
    rfl

theorem IteratorInv.collect {values : List Value} (hi : IteratorInv k q l loops log vm a p)
    (hcollect : collectIteratorValues C drain vm (.obj q) = .values vm' values) :
    IteratorInv k q l loops (log ++ (values.zipIdx (vm.objects.position q).toNat).map fun e =>
      handed l vm e.2 (vm.objects.read e.1)) vm' a a.count := by
  obtain ⟨rfl, j, hj, hkind, hlist, rfl⟩ := collectIteratorValues_iterator hi.iterator hcollect
  rw [hi.iterator.position, Int.toNat_natCast, max_eq_right hi.bound]
  refine hi.moved hj hkind hlist (Nat.le_refl _) ?_ fun e he => ?_
  · have hindex : (Handed.index ∘ fun e : Value × ℕ => handed l vm e.2 (vm.objects.read e.1)) =
        Prod.snd := rfl
    have hlength : (a.live.drop p).length = a.count - p := by
      rw [List.length_drop, ArrayObj.live, List.length_take, min_eq_left hi.iterator.list.sized]
    rw [List.map_append, hi.indices, List.map_map, hindex, List.zipIdx_map_snd, hlength,
      range_append_rest hi.bound]
  · obtain ⟨⟨w, i⟩, hmem, rfl⟩ := List.mem_map.1 he
    obtain ⟨hle, hw⟩ := List.mk_mem_zipIdx_iff_le_and_getElem?_sub.1 hmem
    rw [List.getElem?_drop, Nat.add_sub_cancel' hle] at hw
    rw [handed, hi.iterator.list.shown, List.getElem?_map, hw]
    rfl

/-- As long as no loop makes a step with a slot behind the position, the elements that were handed
out are those before the position. -/
theorem IteratorRun.inv
    (hrun : IteratorRun sizeof fmt C call drain (Synced k q l) k q l loops log vm) :
    ∃ a p, IteratorInv k q l loops log vm a p := by
  induction hrun with
  | start hframe hnew =>
    exact ⟨_, 0, hnew, Nat.zero_le _, rfl, by simp, ⟨_, hframe, .inr (by simp)⟩, by simp,
      List.Pairwise.nil⟩
  | aside _ haside ih =>
    obtain ⟨a, p, hi⟩ := ih
    obtain ⟨b, hi'⟩ := hi.aside haside
    exact ⟨b, p, hi'⟩
  | enter _ hroom ih =>
    obtain ⟨a, p, hi⟩ := ih
    exact ⟨a, p, hi.enter hroom⟩
  | round _ hnext hok hstep ih =>
    obtain ⟨a, p, hi⟩ := ih
    obtain ⟨b, hi'⟩ := hi.round hnext hok hstep
    exact ⟨b, p + 1, hi'⟩
  | exit _ hnext hok hstep ih =>
    obtain ⟨a, p, hi⟩ := ih
    exact ⟨a, p, hi.exit hnext hok hstep⟩
  | leave _ ih =>
    obtain ⟨a, p, hi⟩ := ih
    exact ⟨a, p, hi.leave⟩
  | take _ hsource hnext ih =>
    obtain ⟨a, p, hi⟩ := ih
    exact ⟨a, p + 1, hi.take hsource hnext⟩
  | collect _ hcollect ih =>
    obtain ⟨a, p, hi⟩ := ih
    exact ⟨a, a.count, hi.collect hcollect⟩

/-- **An iterator delivers each element once**, as long as no loop makes a step with a slot behind
the position. -/
theorem deliversOnce_of_synced (sizeof : ObjType → ℕ) (fmt : Printf) (C : CLib)
    (call : VM → VM × Option Value) (drain : VM → Ref → VM × Option (List Value)) (k : ℕ)
    (q l : Ref) : DeliversOnce sizeof fmt C call drain (Synced k q l) k q l := by
  intro loops log vm hrun
  obtain ⟨a, p, hi⟩ := hrun.inv
  have hall : p = a.count → log.map Handed.index = List.range (vm.objects.shown l).length := by
    intro hp
    rw [hi.indices, hi.shown_length, hp]
  refine ⟨?_, hi.shown, fun hend => hall ?_, ?_⟩
  · rw [hi.indices, hi.shown_length]
    exact ⟨_, range_append_rest hi.bound⟩
  · rw [hi.shown_length, hi.iterator.position, Nat.cast_le] at hend
    exact Nat.le_antisymm hi.bound hend
  · rintro slot rest valueOnly offset vm' rfl hnext hok hstep
    exact hall (hi.ended hnext hok hstep)

end Inv

/-! ### A loop that is left by break, and another one -/

/-- A machine with an iterator, at 2, of a list with one element. -/
def iteratorVM : VM where
  frames := [{ closure := 0, slots := 0 }]
  objects := [⟨2, false, .javaObject ⟨0, .iterator, some 1, none, none, .num 0⟩⟩,
    ⟨1, false, .array { elements := [.num 7], count := 1 }⟩]

theorem iteratorAt_iteratorVM :
    Heap.IteratorAt iteratorVM.objects 2 1 { elements := [.num 7], count := 1 } 0 where
  object := ⟨_, rfl, rfl, rfl, rfl⟩
  list := by
    have hroots : ∀ q s, ¬Heap.IsSource iteratorVM.objects q s := by
      rintro q s ⟨a, ha, hs⟩
      have hget := Heap.get?_of_array? ha
      rw [iteratorVM, Heap.get?_cons, Heap.get?_cons] at hget
      split_ifs at hget
      · cases hget
      · cases hget
        cases hs
      · cases hget
    refine ⟨rfl, Nat.le_refl _, fun w hw => ?_, fun q s hs => absurd hs (hroots q s),
      fun q s hs => absurd hs (hroots q s)⟩
    rw [List.mem_singleton.1 hw]
    exact Heap.known_num _ _

/-- The machine after the first round of a loop over the iterator. -/
def iteratorRound (vm : VM) : VM :=
  (foreachNext (fun _ => 0) noText false 0 ((vm.push (.obj 2)).push (.num 0))).bound

/-- The machine after a loop over the iterator that was left in the first round. -/
def iteratorBreak : VM :=
  { iteratorRound iteratorVM with stack := (iteratorRound iteratorVM).stack.take 0 }

/-- After a break the next loop over the iterator gets the same element again. -/
theorem not_deliversOnce_break :
    ¬∀ (sizeof : ObjType → ℕ) (fmt : Printf) (C : CLib) (call : VM → VM × Option Value)
      (drain : VM → Ref → VM × Option (List Value)) (k : ℕ) (q l : Ref),
      DeliversOnce sizeof fmt C call drain (fun _ _ => True) k q l := by
  intro hall
  let C : CLib := ⟨fun _ _ => [], fun _ => [], fun _ => none, fun _ => none, fun _ => 0⟩
  have hlaw := hall (fun _ => 0) noText C (fun vm => (vm, none)) (fun vm _ => (vm, none)) 0 2 1
  have hstart : IteratorRun (fun _ => 0) noText C (fun vm => (vm, none)) (fun vm _ => (vm, none))
      (fun _ _ => True) 0 2 1 [] [] iteratorVM := .start rfl iteratorAt_iteratorVM
  -- the first loop makes a round for the element and is left
  have hfirst := ((hstart.enter (by decide)).round
    ⟨rfl, rfl, fun f hf => Option.some.inj hf ▸ rfl⟩ trivial
    (show foreachNext (fun _ => 0) noText false 0 ((iteratorVM.push (.obj 2)).push (.num 0)) =
      .enter false (.num 0) (.obj 3) (iteratorRound iteratorVM) from rfl)).leave
  -- and the second one makes a round for it, too
  change IteratorRun _ _ _ _ _ _ _ _ _ _ _ iteratorBreak at hfirst
  have hsecond := (hfirst.enter (by decide)).round
    ⟨rfl, rfl, fun f hf => Option.some.inj hf ▸ rfl⟩ trivial
    (show foreachNext (fun _ => 0) noText false 0 ((iteratorBreak.push (.obj 2)).push (.num 0)) =
      .enter false (.num 0) (.obj 3) (iteratorRound iteratorBreak) from rfl)
  have hprefix := (hlaw _ _ _ hsecond).1
  have hlength := hprefix.length_le
  have hshown : ((iteratorRound iteratorBreak).objects.shown 1).length = 1 := by decide
  rw [List.length_range, hshown, List.length_map, List.length_append, List.length_append] at hlength
  exact absurd hlength (by decide)

end VM

end Slp
