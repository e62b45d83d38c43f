import Slp.Object.Intern

/-!
# The collector

`slp_gc_collect` and the functions it calls: marking an object pushes it on the gray stack, the
roots are marked first, `traceReferences` blackens gray objects until none is left, `sweep` unlinks
the unmarked objects, and `rebuildInterned` fills the intern table again from the surviving
strings.

The order in which the C code marks the fields of an object is the order of `references`, and the
order in which it marks the roots is that of `rootReferences`.
-/

namespace Slp

/-- The object a value points to, as a list. -/
def Value.references : Value → List Ref
  | .obj r => [r]
  | _ => []

/-- The objects of a frame that the collector marks. -/
def CallFrame.references (f : CallFrame) : List Ref :=
  f.closure :: (f.localScopes.toList ++ f.closureScope.toList ++ f.continuationReturn.toList ++
    f.traceCall.toList ++ f.traceSource.toList)

/-- The number of upvalues of the function at `r`. -/
def Heap.upvalueCount (h : Heap) (r : Ref) : ℕ :=
  match h.get? r with
  | some (.function f) => f.upvalueCount
  | _ => 0

/-- The objects that `blacken_object` marks, in its order. -/
def Obj.references (h : Heap) : Obj → List Ref
  | .string _ => []
  | .classObj c => c.name :: (c.interfaces.toList ++ c.fields.toList)
  | .javaObject j =>
    j.classObject :: (j.list.toList ++ j.map.toList ++ j.fields.toList ++ j.value.references)
  | .long _ => []
  | .double _ => []
  | .array a => (a.elements.take a.count).flatMap Value.references ++ a.viewSource.toList
  | .hash t =>
    (t.entries.flatMap fun e =>
      if e.key = .null then [] else e.key.references ++ e.value.references) ++
      t.missPolicy.toList ++ t.removalPolicy.toList
  | .function f =>
    f.name.toList ++ f.sourceName.toList ++ f.chunk.constants.flatMap Value.references
  | .closure c =>
    c.function :: (c.scope.toList ++ c.callName.toList ++
      (c.regexStates.flatMap fun s => [s.text, s.pattern]) ++ c.lastRegexMatches.toList ++
      (c.upvalues.take (h.upvalueCount c.function)).flatMap Option.toList ++
      (match c.coroutine with
        | none => []
        | some k => k.stack.flatMap Value.references ++ k.frames.flatMap CallFrame.references))
  | .upvalue v => v.references
  | .continuation k =>
    k.stack.flatMap Value.references ++ k.frames.flatMap CallFrame.references ++
      k.coroutineOwner.toList ++ k.returnTraceCall.toList ++ k.returnTraceSource.toList
  | .native n => n.name.toList
  | .bridge b => b.keyword.toList ++ b.name.toList ++ b.closure.toList
  | .ioHandle i => i.token.references ++ i.objectValues.flatMap Value.references
  | .keyValue k v => k.references ++ v.references
  | .tainted v => v.references
  | .scalarCell v w => v.references ++ w.toList

/-- The objects that `mark_roots` marks, in its order. -/
def VM.rootReferences (vm : VM) : List Ref :=
  vm.stack.flatMap Value.references ++ vm.frames.flatMap CallFrame.references ++
    vm.openUpvalues ++ vm.globals.toList ++ vm.natives.toList ++ vm.lastRegexMatches.toList ++
    vm.lastStackTrace.toList ++ vm.profileStatistics.toList ++ vm.packedObjects.toList ++
    vm.consoleHandle.toList ++ vm.thrownException.references ++ vm.lastError.references ++
    vm.ffiSlots.flatMap Value.references ++ vm.callables.flatMap Value.references

namespace Gc

/-! ### Marking -/

/-- The mark bit of the object at `r`; `none` when no such object is linked. -/
def isMarked (h : Heap) (r : Ref) : Option Bool := (h.find? (·.ref == r)).map (·.isMarked)

/-- The mark bit of the object at `r` set. -/
def setMark (h : Heap) (r : Ref) : Heap :=
  h.map fun c => if c.ref == r then { c with isMarked := true } else c

/-- `slp_gc_mark_obj`: an unmarked object is marked and pushed on the gray stack. -/
def markObj (vm : VM) (r : Ref) : VM :=
  match isMarked vm.objects r with
  | some false => { vm with objects := setMark vm.objects r, gray := r :: vm.gray }
  | _ => vm

/-- `mark_roots`. -/
def markRoots (vm : VM) : VM := vm.rootReferences.foldl markObj vm

/-- `blacken_object` on the object at `r`. -/
def blackenObject (vm : VM) (r : Ref) : VM :=
  match vm.objects.get? r with
  | some o => (o.references vm.objects).foldl markObj vm
  | none => vm

/-- The number of unmarked objects. -/
def unmarkedCount (h : Heap) : ℕ := h.countP fun c => !c.isMarked

/-- Bound on the steps of the tracing loop still to come. -/
def traceBound (vm : VM) : ℕ := 2 * unmarkedCount vm.objects + vm.gray.length

theorem unmarkedCount_setMark_lt {h : Heap} {r : Ref} (hr : isMarked h r = some false) :
    unmarkedCount (setMark h r) < unmarkedCount h := by
  induction h with
  | nil => simp [isMarked] at hr
  | cons c h ih =>
    have hle : unmarkedCount (setMark h r) ≤ unmarkedCount h := by
      clear ih hr
      induction h with
      | nil => simp [setMark, unmarkedCount]
      | cons c h ih =>
        simp only [setMark, unmarkedCount, List.map_cons, List.countP_cons] at ih ⊢
        by_cases hc : c.ref = r
        · simp only [hc, beq_self_eq_true, ↓reduceIte]
          split_ifs <;> simp_all
          omega
        · simp only [hc, beq_iff_eq, ↓reduceIte]
          exact Nat.add_le_add_right (by simpa using ih) _
    simp only [setMark, unmarkedCount, List.map_cons, List.countP_cons] at hle ih ⊢
    by_cases hc : c.ref = r
    · have hm : c.isMarked = false := by simpa [isMarked, hc] using hr
      simp only [hc, beq_self_eq_true, ↓reduceIte, hm, Bool.not_true, Bool.false_eq_true,
        Bool.not_false]
      omega
    · have hr' : isMarked h r = some false := by simpa [isMarked, hc] using hr
      simp only [hc, beq_iff_eq, ↓reduceIte]
      have := ih hr'
      simp only [beq_iff_eq] at this
      omega

theorem traceBound_markObj (vm : VM) (r : Ref) : traceBound (markObj vm r) ≤ traceBound vm := by
  unfold markObj
  split
  · rename_i hr
    have := unmarkedCount_setMark_lt hr
    simp only [traceBound, List.length_cons]
    omega
  · exact Nat.le_refl _

theorem traceBound_foldl_markObj (rs : List Ref) (vm : VM) :
    traceBound (rs.foldl markObj vm) ≤ traceBound vm := by
  induction rs generalizing vm with
  | nil => exact Nat.le_refl _
  | cons r rs ih => exact (ih _).trans (traceBound_markObj vm r)

theorem traceBound_blackenObject (vm : VM) (r : Ref) :
    traceBound (blackenObject vm r) ≤ traceBound vm := by
  unfold blackenObject
  split
  · exact traceBound_foldl_markObj _ _
  · exact Nat.le_refl _

/-- `trace_references`: blacken gray objects until none is left. -/
def traceReferences (vm : VM) : VM :=
  match _h : vm.gray with
  | [] => vm
  | r :: gray => traceReferences (blackenObject { vm with gray } r)
termination_by traceBound vm
decreasing_by
  refine Nat.lt_of_le_of_lt (traceBound_blackenObject _ _) ?_
  simp [traceBound, _h]

/-! ### Sweeping -/

/-- `slp_gc_object_size`, from the `sizeof` of the object structs. -/
def objectSize (sizeof : ObjType → ℕ) : Obj → ℕ
  | .string s => sizeof .string + s.chars.length + 1
  | o => sizeof o.type

/-- `slp_gc_sweep`: marked objects stay linked and lose their mark, the others are unlinked and
their size is taken from the allocation count. -/
def sweepObjects (sizeof : ObjType → ℕ) : Heap → UInt64 → Heap × UInt64
  | [], bytes => ([], bytes)
  | c :: h, bytes =>
    if c.isMarked then
      let (h', bytes') := sweepObjects sizeof h bytes
      ({ c with isMarked := false } :: h', bytes')
    else sweepObjects sizeof h (bytes - UInt64.ofNat (objectSize sizeof c.obj))

/-- `slp_gc_sweep` on the machine. -/
def sweep (sizeof : ObjType → ℕ) (vm : VM) : VM :=
  let (objects, bytesAllocated) := sweepObjects sizeof vm.objects vm.bytesAllocated
  { vm with objects, bytesAllocated }

/-! ### The intern table -/

/-- The body of the loop of `rebuild_interned` for one object: a string goes into the first free
cell from its hash on. -/
def reinsert (table : List (Option Ref) × ℕ) (c : HeapCell) : Option (List (Option Ref) × ℕ) :=
  match c.obj with
  | .string s => do
    let idx ← Intern.probeFree table.1 table.1.length (s.hash.toNat &&& (table.1.length - 1))
    return (table.1.set idx (some c.ref), table.2 + 1)
  | _ => some table

/-- `rebuild_interned`. -/
def rebuildInterned (vm : VM) : Option VM :=
  match vm.interned with
  | none => some vm
  | some table =>
    if table.length = 0 then some vm
    else do
      let (table, count) ← vm.objects.foldlM reinsert (List.replicate table.length none, 0)
      return { vm with interned := some table, internedCount := count }

/-- The allocation count that triggers the next collection. -/
def nextThreshold (bytesAllocated : UInt64) : UInt64 :=
  let threshold := bytesAllocated * 3 / 2
  if threshold < 256 * 1024 then 256 * 1024 else threshold

/-- `slp_gc_collect`; `none` when a loop of it does not end. -/
def collect (sizeof : ObjType → ℕ) (vm : VM) : Option VM := do
  let vm ← rebuildInterned (sweep sizeof (traceReferences (markRoots vm)))
  return { vm with nextGcThreshold := nextThreshold vm.bytesAllocated }

end Gc

end Slp
