import Mathlib.Data.List.InsertIdx
import Slp.Object.WriteThrough
import Slp.Vm.ForeachHash

/-!
# A step of a loop over an array

What `OP_FOREACH_NEXT` does when the version that the frame noted for the array is up to date: it
makes a round for the element under the iterator, as a cell, or leaves the loop at the end.  The
contents of the array stay (`elementCell_spec`, `arrayNext_enter`, `arrayNext_exit`).
-/

namespace Slp

namespace Heap

/-- The array at `r`, with its elements in the heap. -/
structure ArrayAt (h : Heap) (r : Ref) (a : ArrayObj) : Prop where
  array : h.array? r = some a
  sized : a.count ≤ a.elements.length
  known : ∀ w ∈ a.live, h.Known w
  ordered : h.Ordered

section Contents

variable {h h' : Heap} {r q : Ref} {a b : ArrayObj} {i : ℕ} {v w : Value} {c : HeapCell}

theorem ArrayAt.shown (ha : ArrayAt h r a) : h.shown r = a.live.map h.read := by
  rw [Heap.shown, Heap.live, ha.array]

theorem ArrayAt.length_shown (ha : ArrayAt h r a) : (h.shown r).length = a.count := by
  rw [ha.shown, List.length_map, ArrayObj.live, List.length_take, min_eq_left ha.sized]

theorem ArrayAt.getElem? (ha : ArrayAt h r a) (hi : i < a.count) :
    a.live[i]? = some (a.elements.getD i .null) := by
  have hlen : i < a.elements.length := Nat.lt_of_lt_of_le hi ha.sized
  rw [live_getElem?, if_pos hi, List.getD_eq_getElem?_getD, List.getElem?_eq_getElem hlen]
  rfl

theorem isCell_eq_isSome (h : Heap) (v : Value) : h.isCell v = (h.cell? v).isSome := by
  cases v with
  | obj q =>
    rw [isCell_obj, cell?_obj]
    cases h.get? q with
    | none => rfl
    | some o => cases o <;> rfl
  | null => rfl
  | bool b => rfl
  | num n => rfl

/-- A new object that is no array leaves the arrays alone. -/
theorem array?_cons_cell (hc : c.ref = h.freshRef) (hobj : ∀ b, c.obj ≠ .array b) (q : Ref) :
    Heap.array? (c :: h) q = h.array? q := by
  unfold Heap.array?
  rw [get?_cons]
  split_ifs with hq
  · rw [← hq, hc, get?_freshRef]
    split
    · rename_i b hb
      exact absurd (Option.some.inj hb) (hobj b)
    · rfl
  · rfl

theorem Ordered.congr (hord : Ordered h) (hsame : ∀ q, h'.array? q = h.array? q) : Ordered h' where
  older q s hs := by
    obtain ⟨a, ha, hview⟩ := hs
    exact hord.older q s ⟨a, (hsame q).symm.trans ha, hview⟩
  present q s hs := by
    obtain ⟨a, ha, hview⟩ := hs
    rw [hsame]
    exact hord.present q s ⟨a, (hsame q).symm.trans ha, hview⟩

/-- The heap after the element `i` of the array became a new cell. -/
def withCell (h : Heap) (r : Ref) (a : ArrayObj) (i : ℕ) : Heap :=
  Heap.set (⟨h.freshRef, false, .scalarCell (a.elements.getD i .null) none⟩ :: h) r
    (.array { a with elements := a.elements.set i (.obj h.freshRef) })

theorem array?_withCell (ha : h.array? r = some a) (q : Ref) :
    (h.withCell r a i).array? q = if r = q then
      some { a with elements := a.elements.set i (.obj h.freshRef) } else h.array? q := by
  have hcons := array?_cons_cell (h := h)
    (c := ⟨h.freshRef, false, .scalarCell (a.elements.getD i .null) none⟩) rfl (by simp)
  rw [withCell, array?_setArray ((hcons r).trans ha), hcons]

theorem cell?_withCell (ha : h.array? r = some a) (hw : h.Known w) :
    (h.withCell r a i).cell? w = h.cell? w := by
  have hcons := array?_cons_cell (h := h)
    (c := ⟨h.freshRef, false, .scalarCell (a.elements.getD i .null) none⟩) rfl (by simp) r
  rw [withCell, cell?_setArray (hcons.trans ha), cell?_cons rfl hw]

theorem cell?_withCell_new (ha : h.array? r = some a) :
    (h.withCell r a i).cell? (.obj h.freshRef) =
      some (h.freshRef, a.elements.getD i .null, none) := by
  have hcons := array?_cons_cell (h := h)
    (c := ⟨h.freshRef, false, .scalarCell (a.elements.getD i .null) none⟩) rfl (by simp) r
  rw [withCell, cell?_setArray (hcons.trans ha), cell?_obj, get?_cons, if_pos rfl]

theorem freshRef_withCell (h : Heap) (r : Ref) (a : ArrayObj) (i : ℕ) :
    (h.withCell r a i).freshRef = h.freshRef + 1 := by
  rw [withCell, freshRef_set]
  exact max_eq_left (Nat.le_succ _)

/-- A new cell in an array keeps all arrays, but for that element. -/
theorem ArrayAt.withCell (ha : ArrayAt h r a) (hq : ArrayAt h q b) :
    ArrayAt (h.withCell r a i) q
      (if r = q then { b with elements := b.elements.set i (.obj h.freshRef) } else b) := by
  have hset : ∀ q, (h.withCell r a i).array? q = _ := array?_withCell ha.array
  have hord : Ordered (h.withCell r a i) :=
    ha.ordered.set (b := { a with elements := a.elements.set i (.obj h.freshRef) })
      ha.array ⟨rfl, rfl, Nat.le_refl _, id⟩ hset
  have hknown : ∀ w, h.Known w → (h.withCell r a i).Known w := fun w hw =>
    hw.mono (by rw [freshRef_withCell]; exact Nat.le_succ _)
  split_ifs with hrq
  · subst hrq
    obtain rfl := Option.some.inj (ha.array.symm.trans hq.array)
    refine ⟨by rw [hset, if_pos rfl], ?_, ?_, hord⟩
    · show a.count ≤ (a.elements.set i (.obj h.freshRef)).length
      rw [List.length_set]
      exact ha.sized
    · intro w hw
      rw [ArrayObj.live, List.take_set] at hw
      rcases List.mem_or_eq_of_mem_set hw with hold | rfl
      · exact hknown w (ha.known w hold)
      · rintro x ⟨⟩
        rw [freshRef_withCell]
        exact Nat.lt_succ_self _
  · exact ⟨by rw [hset, if_neg hrq]; exact hq.array, hq.sized, fun w hw => hknown w (hq.known w hw),
      hord⟩

/-- A new cell shows the element it took the place of. -/
theorem ArrayAt.shown_withCell (ha : ArrayAt h r a) (hi : i < a.count)
    (hcell : h.cell? (a.elements.getD i .null) = none) :
    (h.withCell r a i).shown r = h.shown r := by
  have hok := ha.withCell (i := i) ha
  rw [if_pos rfl] at hok
  have hlive : ({ a with elements := a.elements.set i (.obj h.freshRef) } : ArrayObj).live =
      a.live.set i (.obj h.freshRef) := List.take_set
  have hread : ∀ w ∈ a.live, (h.withCell r a i).read w = h.read w := by
    intro w hw
    rw [Heap.read, Heap.read, cell?_withCell ha.array (ha.known w hw)]
  -- the cell is read as its content, which is what the element was read as
  have hnew : (h.withCell r a i).read (.obj h.freshRef) = h.read (a.elements.getD i .null) := by
    rw [Heap.read, Heap.read, cell?_withCell_new ha.array, hcell]
  rw [hok.shown, ha.shown, hlive, List.map_set, hnew, List.map_congr_left hread]
  refine set_of_getElem? ?_
  rw [List.getElem?_map, ha.getElem? hi]
  rfl

/-- The array after the removal of an element: its elements are those that are left. -/
theorem ArrayAt.array?_removeAt (ha : ArrayAt h r a) (hi : i < a.count) :
    ∃ b, (h.change r (.removeAt i)).array? r = some b ∧ Rewritten a b (a.live.eraseIdx i) false := by
  have hown : Rewritten a ((a.removeOwn i).flag false) (a.live.eraseIdx i) false :=
    rewritten_flag (rewritten_removeOwn ha.sized hi)
  have hset := array?_setArray ha.array ((a.removeOwn i).flag false)
  have hout : ¬((i : ℤ) < 0 ∨ (i : ℤ) ≥ a.count) := by omega
  show ∃ b, (removeInternal (r + 1) h r i false).array? r = some b ∧ _
  rw [removeInternal, ha.array]
  dsimp only
  rw [if_neg hout, Int.toNat_natCast]
  cases hview : a.viewSource with
  | none => exact ⟨_, by rw [hset, if_pos rfl], hown⟩
  | some s =>
    -- the source is older, so what happens to it does not come back to the array
    have hlt : s < r := ha.ordered.older r s ⟨a, ha.array, hview⟩
    have hord := ha.ordered.set ha.array (own_flag (own_removeOwn a i) false).toKept hset
    have hrest := (removeInternal_effect hord r s (a.viewOffset + i) true).apart r
      fun habove => Nat.not_lt.2 (Above.le hord habove) hlt
    rw [hset, if_pos rfl] at hrest
    dsimp only
    rw [if_neg Bool.false_ne_true]
    cases hsource : (removeInternal r (h.set r (.array ((a.removeOwn i).flag false))) s
        (a.viewOffset + i) true).array? s with
    | none =>
      refine ⟨(a.removeOwn i).flag false, ?_, hown⟩
      rw [Heap.refresh, hrest, hsource]
      exact hrest
    | some b =>
      refine ⟨_, by rw [array?_refresh hrest hsource, if_pos rfl], ?_⟩
      exact ⟨hown.viewSource, hown.viewOffset, hown.viewInvalid, hown.sized, hown.live⟩

/-- The removal of an element takes it out of what is shown. -/
theorem ArrayAt.removeAt (ha : ArrayAt h r a) (hi : i < a.count) :
    (∃ b, ArrayAt (h.change r (.removeAt i)) r b) ∧
      (h.change r (.removeAt i)).shown r = (h.shown r).eraseIdx i := by
  obtain ⟨b, hb, hnew⟩ := ha.array?_removeAt hi
  have hok : ArrayAt (h.change r (.removeAt i)) r b := by
    refine ⟨hb, hnew.sized, ?_, ?_⟩
    · intro w hw
      rw [hnew.live] at hw
      exact (ha.known w (List.mem_of_mem_eraseIdx hw)).mono (Nat.le_of_eq (freshRef_change _ _ _).symm)
    · exact (removeInternal_effect ha.ordered (r + 1) r i false).ordered ha.ordered
  refine ⟨⟨b, hok⟩, ?_⟩
  rw [hok.shown, ha.shown, hnew.live, List.eraseIdx_map]
  exact List.map_congr_left fun w _ => read_congr (removeInternal_cell? (r + 1) h r i false) w

end Contents

end Heap

namespace VM

section Step

variable (sizeof : ObjType → ℕ) (fmt : Printf) (valueOnly : Bool) (offset : ℕ) {vm : VM} {r : Ref}
  {a : ArrayObj} {i : ℕ}

/-- What is read of an element, through the cell that a round makes of it. -/
structure Celled (vm vm' : VM) (r : Ref) (a : ArrayObj) (i : ℕ) (value : Value) : Prop where
  stack : vm'.stack = vm.stack
  frames : vm'.frames = vm.frames
  arrays : ∀ q b, Heap.ArrayAt vm.objects q b →
    ∃ es, Heap.ArrayAt vm'.objects q { b with elements := es }
  shown : vm'.objects.shown r = vm.objects.shown r
  value : (vm.objects.shown r)[i]? = some (vm'.objects.read value)

theorem elementCell_spec (ha : Heap.ArrayAt vm.objects r a) (hi : i < a.count) :
    Celled vm (vm.elementCell sizeof r a i).1 r a i (vm.elementCell sizeof r a i).2 := by
  have hshown : (vm.objects.shown r)[i]? = some (vm.objects.read (a.elements.getD i .null)) := by
    rw [ha.shown, List.getElem?_map, ha.getElem? hi]
    rfl
  unfold elementCell
  dsimp only
  by_cases hcell : vm.objects.isCell (a.elements.getD i .null) = true
  · rw [if_pos hcell]
    exact ⟨rfl, rfl, fun q b hb => ⟨b.elements, hb⟩, rfl, hshown⟩
  · rw [if_neg hcell]
    have hnone : vm.objects.cell? (a.elements.getD i .null) = none := by
      rw [Heap.isCell_eq_isSome] at hcell
      simpa using hcell
    refine ⟨rfl, rfl, fun q b hb => ?_, ha.shown_withCell hi hnone, ?_⟩
    · have hok := ha.withCell (i := i) hb
      split_ifs at hok
      · exact ⟨_, hok⟩
      · exact ⟨b.elements, hok⟩
    · show (vm.objects.shown r)[i]? =
        some ((vm.objects.withCell r a i).read (.obj vm.objects.freshRef))
      rw [hshown, Heap.read, Heap.read, Heap.cell?_withCell_new ha.array, hnone]

/-- The frame has no outdated version of the array at `r`. -/
def Noted (f : CallFrame) (r : Ref) (a : ArrayObj) : Prop :=
  f.foreachIterationArray = some r →
    f.foreachIterationVersion = a.mutationVersion ∧ f.foreachInvalidated = false

theorem noteArray_of_noted {f : CallFrame} {n : ℤ} (hf : n = 0 ∨ Noted f r a) :
    (noteArray r a n f).foreachIterationArray = some r ∧
      (noteArray r a n f).foreachIterationVersion = a.mutationVersion ∧
      (noteArray r a n f).foreachInvalidated = false := by
  unfold noteArray
  by_cases hnew : n = 0 ∨ f.foreachIterationArray ≠ some r
  · rw [if_pos hnew]
    exact ⟨rfl, rfl, rfl⟩
  · rw [if_neg hnew]
    rw [not_or, not_not] at hnew
    exact ⟨hnew.2, hf.resolve_left hnew.1 hnew.2⟩

theorem modifyFrame_modifyFrame (vm : VM) (g g' : CallFrame → CallFrame) :
    (vm.modifyFrame g).modifyFrame g' = vm.modifyFrame (g' ∘ g) := by
  simp [modifyFrame, List.modify_modify_eq]

/-- The frame after a round for the element `n`, from the frame before. -/
def roundFrame (r : Ref) (a : ArrayObj) (n offset : ℤ) (value : Value) (f : CallFrame) : CallFrame :=
  recordElement r n offset value (noteArray r a n (foreachReset f))

theorem foreachNext_array (hh : AtHead vm r i) (ha : vm.objects.array? r = some a) :
    ∃ f, vm.currentFrame? = some f ∧ f.foreachPending = false ∧
      foreachNext sizeof fmt valueOnly offset vm =
        (vm.modifyFrame fun _ => foreachReset f).arrayStep sizeof offset none r a i
          (foreachReset f) := by
  obtain ⟨f, hf, hpending, heq⟩ := hh.collectionStep sizeof fmt valueOnly offset
  obtain ⟨s, hs⟩ := hh.stack
  refine ⟨f, hf, hpending, ?_⟩
  have hs' : (vm.modifyFrame fun _ => foreachReset f).stack = s ++ [.obj r, .num i] := hs
  rw [heq, VM.collectionStep, peek_zero hs', peek_one hs']
  dsimp only
  rw [modifyFrame_objects, Heap.get?_of_array? ha]
  rfl

/-- Writing to the current frame what is computed from it is an update of it. -/
theorem modifyFrame_of_current {f : CallFrame} (hf : vm.currentFrame? = some f)
    (g : CallFrame → CallFrame) : vm.modifyFrame (fun _ => g f) = vm.modifyFrame g := by
  have hlast : vm.frames[vm.frames.length - 1]? = some f := by
    rw [← List.getLast?_eq_getElem?]
    exact hf
  have hframes : vm.frames.modify (vm.frames.length - 1) (fun _ => g f) =
      vm.frames.modify (vm.frames.length - 1) g := by
    refine List.ext_getElem? fun j => ?_
    rw [List.getElem?_modify, List.getElem?_modify]
    split_ifs with hj
    · rw [← hj, hlast]
      rfl
    · rfl
  rw [modifyFrame, hframes]
  rfl

theorem toNat_top_sub_one (vm : VM) : (vm.top - 1).toNat = vm.stack.length - 1 := by
  unfold top
  omega

/-- A round for the element `i` of the array at `r`. -/
structure ArrayRound (vm vm' : VM) (r : Ref) (a : ArrayObj) (i : ℕ) (value : Value) : Prop where
  stack : vm'.stack = vm.stack.set (vm.stack.length - 1) (.num (i + 1))
  frames : vm'.frames =
    vm.frames.modify (vm.frames.length - 1) (roundFrame r a i (vm.top - 1) value)
  arrays : ∀ q b, Heap.ArrayAt vm.objects q b →
    ∃ es, Heap.ArrayAt vm'.objects q { b with elements := es }
  shown : vm'.objects.shown r = vm.objects.shown r
  value : (vm.objects.shown r)[i]? = some (vm'.objects.read value)

/-- The frame at the start of a step, with the version that the step compares. -/
def notedFrame (r : Ref) (a : ArrayObj) (n : ℤ) (f : CallFrame) : CallFrame :=
  noteArray r a n (foreachReset f)

theorem arrayStep_eq (hh : AtHead vm r i) (ha : vm.objects.array? r = some a) :
    ∃ f, vm.currentFrame? = some f ∧ foreachNext sizeof fmt valueOnly offset vm =
      (let g := notedFrame r a i f
      let vm := vm.modifyFrame (notedFrame r a i)
      if g.foreachInvalidated then vm.leaveForeach offset
      else if 0 < i ∧ g.foreachIterationVersion ≠ a.mutationVersion then
        (vm.modifyFrame fun f => { f with foreachInvalidated := true }).enterForeach true i
          g.foreachLastKey g.foreachLastValue
      else if i < a.count then
        let (vm, value) := vm.elementCell sizeof r a i
        (vm.modifyFrame (recordElement r i (vm.top - 1) value)).enterForeach false i (.num i) value
      else vm.leaveForeach offset) := by
  obtain ⟨f, hf, -, heq⟩ := foreachNext_array sizeof fmt valueOnly offset hh ha
  have hframe : ((vm.modifyFrame fun _ => foreachReset f).modifyFrame fun _ =>
      noteArray r a i (foreachReset f)) = vm.modifyFrame (notedFrame r a i) := by
    rw [modifyFrame_modifyFrame]
    exact modifyFrame_of_current hf (notedFrame r a i)
  refine ⟨f, hf, ?_⟩
  rw [heq, arrayStep]
  dsimp only
  rw [hframe]
  simp only [Int.natCast_pos, Int.natCast_nonneg, Nat.cast_lt, true_and, Int.toNat_natCast]
  rfl

/-- The record is of another version, and the step reports it. -/
theorem arrayNext_stale (hh : AtHead vm r i) (ha : vm.objects.array? r = some a)
    (hvalid : ∀ f, vm.currentFrame? = some f → (notedFrame r a i f).foreachInvalidated = false)
    (hstale : ∀ f, vm.currentFrame? = some f →
      0 < i ∧ (notedFrame r a i f).foreachIterationVersion ≠ a.mutationVersion) :
    ∃ key value vm', foreachNext sizeof fmt valueOnly offset vm = .enter true key value vm' ∧
      vm'.stack = vm.stack.set (vm.stack.length - 1) (.num (i + 1)) ∧
      vm'.frames = vm.frames.modify (vm.frames.length - 1)
        (fun f => { notedFrame r a i f with foreachInvalidated := true }) ∧
      vm'.objects = vm.objects := by
  obtain ⟨f, hf, heq⟩ := arrayStep_eq sizeof fmt valueOnly offset hh ha
  dsimp only at heq
  rw [if_neg (by simp [hvalid f hf]), if_pos (hstale f hf), modifyFrame_modifyFrame] at heq
  refine ⟨_, _, _, heq, ?_, rfl, rfl⟩
  show vm.stack.set (vm.top - 1).toNat _ = _
  rw [toNat_top_sub_one]

/-- With a version that is up to date a step for an element is a round. -/
theorem arrayNext_round (hh : AtHead vm r i) (ha : Heap.ArrayAt vm.objects r a) (hi : i < a.count)
    (hvalid : ∀ f, vm.currentFrame? = some f → (notedFrame r a i f).foreachInvalidated = false)
    (hcurrent : ∀ f, vm.currentFrame? = some f →
      ¬(0 < i ∧ (notedFrame r a i f).foreachIterationVersion ≠ a.mutationVersion)) :
    ∃ value vm', foreachNext sizeof fmt valueOnly offset vm = .enter false (.num i) value vm' ∧
      ArrayRound vm vm' r a i value := by
  obtain ⟨f, hf, heq⟩ := arrayStep_eq sizeof fmt valueOnly offset hh ha.array
  dsimp only at heq
  rw [if_neg (by simp [hvalid f hf]), if_neg (hcurrent f hf), if_pos hi] at heq
  -- the element becomes a cell, and the frame is recorded
  obtain ⟨hstack, hframes, harrays, hshown, hvalue⟩ := elementCell_spec sizeof
    (show Heap.ArrayAt (vm.modifyFrame (notedFrame r a i)).objects r a from ha) hi
  generalize (vm.modifyFrame (notedFrame r a i)).elementCell sizeof r a i = p
    at heq hstack hframes harrays hshown hvalue
  obtain ⟨vm', value⟩ := p
  dsimp only at heq hstack hframes harrays hshown hvalue
  have htop : vm'.top = vm.top := by rw [top, hstack, modifyFrame_stack, top]
  rw [htop, enterForeach] at heq
  refine ⟨_, _, heq, ?_, ?_, harrays, hshown, hvalue⟩
  · show vm'.stack.set (vm'.top - 1).toNat _ = _
    rw [toNat_top_sub_one, hstack]
    rfl
  · show vm'.frames.modify _ _ = _
    rw [hframes]
    simp only [modifyFrame, List.length_modify, List.modify_modify_eq]
    rfl

/-- A step that was reported before, or at the end, leaves the loop. -/
theorem arrayNext_leave (hh : AtHead vm r i) (ha : vm.objects.array? r = some a)
    (hend : ∀ f, vm.currentFrame? = some f → (notedFrame r a i f).foreachInvalidated = true ∨
      ¬(0 < i ∧ (notedFrame r a i f).foreachIterationVersion ≠ a.mutationVersion) ∧ a.count ≤ i) :
    foreachNext sizeof fmt valueOnly offset vm =
      (vm.modifyFrame (notedFrame r a i)).leaveForeach offset := by
  obtain ⟨f, hf, heq⟩ := arrayStep_eq sizeof fmt valueOnly offset hh ha
  dsimp only at heq
  rw [heq]
  rcases hend f hf with hinvalid | ⟨hcurrent, hle⟩
  · rw [if_pos hinvalid]
  · rw [if_neg hcurrent, if_neg (Nat.not_lt.2 hle)]
    split_ifs <;> rfl

theorem arrayNext_enter (hh : AtHead vm r i) (ha : Heap.ArrayAt vm.objects r a) (hi : i < a.count)
    (hnoted : i = 0 ∨ ∀ f, vm.currentFrame? = some f → Noted f r a) :
    ∃ value vm', foreachNext sizeof fmt valueOnly offset vm = .enter false (.num i) value vm' ∧
      ArrayRound vm vm' r a i value := by
  have hnote : ∀ f, vm.currentFrame? = some f → _ := fun f hf =>
    noteArray_of_noted (a := a) (r := r) (f := foreachReset f) (n := i)
      (hnoted.imp (by simp) fun hall => hall f hf)
  exact arrayNext_round sizeof fmt valueOnly offset hh ha hi (fun f hf => (hnote f hf).2.2)
    fun f hf hno => hno.2 (hnote f hf).2.1

theorem arrayNext_exit (hh : AtHead vm r i) (ha : Heap.ArrayAt vm.objects r a) (hi : a.count ≤ i)
    (hnoted : i = 0 ∨ ∀ f, vm.currentFrame? = some f → Noted f r a) :
    (foreachNext sizeof fmt valueOnly offset vm).exits = true ∧
      (foreachNext sizeof fmt valueOnly offset vm).vm.objects = vm.objects := by
  have hnote : ∀ f, vm.currentFrame? = some f → _ := fun f hf =>
    noteArray_of_noted (a := a) (r := r) (f := foreachReset f) (n := i)
      (hnoted.imp (by simp) fun hall => hall f hf)
  rw [arrayNext_leave sizeof fmt valueOnly offset hh ha.array fun f hf =>
    .inr ⟨fun hno => hno.2 (hnote f hf).2.1, hi⟩]
  exact ⟨rfl, rfl⟩

end Step

end VM

end Slp
