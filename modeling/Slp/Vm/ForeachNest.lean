import Slp.Vm.ForeachRemoveHash

/-!
# Nested loops of one frame

All loops of a call frame share its record of an iteration.  `NestRun` follows the loops over
arrays of one frame together with what a reader would keep of each of them: the element of its last
round, whether that is still there, whether its array was modified since, and whether that was
reported; and besides, which loop the record is of (`Holder`).  `nestLaw_of_held` : a modification
is reported and `remove()` removes the current element, whenever the record is of the loop that
is asked for.
-/

namespace Slp

namespace Heap

/-- The array at `r` does not go back to an older version, and in one version its length stays. -/
def Grown (h h' : Heap) (r : Ref) : Prop :=
  ∀ a, ArrayAt h r a → ∃ b, ArrayAt h' r b ∧ a.mutationVersion ≤ b.mutationVersion ∧
    (b.mutationVersion = a.mutationVersion → b.count = a.count)

section Grown

variable {h h' h'' : Heap} {r q s : Ref} {a b x : ArrayObj}

theorem Grown.refl (h : Heap) (r : Ref) : Grown h h r := fun a ha =>
  ⟨a, ha, Nat.le_refl _, fun _ => rfl⟩

theorem Grown.trans (hg : Grown h h' r) (hg' : Grown h' h'' r) : Grown h h'' r := by
  intro a ha
  obtain ⟨b, hb, hle, hcount⟩ := hg a ha
  obtain ⟨c, hc, hle', hcount'⟩ := hg' b hb
  refine ⟨c, hc, hle.trans hle', fun hsame => ?_⟩
  rw [hcount' (by omega), hcount (by omega)]

/-- The array at `r` is overwritten by one with elements of its own. -/
theorem grown_set (ha : h.array? r = some a) (hk : Kept a x)
    (hown : a.count ≤ a.elements.length →
      x.count ≤ x.elements.length ∧ ∀ w ∈ x.live, w ∈ a.live)
    (hversion : x.mutationVersion = a.mutationVersion → x.count = a.count) (q : Ref) :
    Grown h (h.set r (.array x)) q := by
  intro b hb
  have hset := array?_setArray ha x
  have hord : Ordered (h.set r (.array x)) := hb.ordered.set ha hk hset
  have hfresh := freshRef_set h r (.array x)
  by_cases hrq : r = q
  · subst hrq
    obtain rfl := Option.some.inj (ha.symm.trans hb.array)
    obtain ⟨hsized, hlive⟩ := hown hb.sized
    refine ⟨x, ⟨by rw [hset, if_pos rfl], hsized, fun w hw => ?_, hord⟩, hk.mutationVersion, hversion⟩
    exact (hb.known w (hlive w hw)).mono (Nat.le_of_eq hfresh.symm)
  · refine ⟨b, ⟨by rw [hset, if_neg hrq]; exact hb.array, hb.sized, fun w hw => ?_, hord⟩,
      Nat.le_refl _, fun _ => rfl⟩
    exact (hb.known w hw).mono (Nat.le_of_eq hfresh.symm)

theorem grown_refresh (h : Heap) (r s q : Ref) : Grown h (h.refresh r s) q := by
  unfold refresh
  split
  · rename_i a b ha _
    exact grown_set (x := { a with viewSourceVersion := b.mutationVersion }) ha
      ⟨rfl, rfl, Nat.le_refl _, id⟩ (fun hsized => ⟨hsized, fun _ => id⟩) (fun _ => rfl) q
  · exact Grown.refl h q

theorem grown_removeInternal (fuel : ℕ) (h : Heap) (r : Ref) (index : ℤ) (fromChildView : Bool)
    (q : Ref) : Grown h (removeInternal fuel h r index fromChildView) q := by
  induction fuel generalizing h r index fromChildView with
  | zero => exact Grown.refl h q
  | succ fuel ih =>
    rw [removeInternal]
    cases ha : h.array? r with
    | none => exact Grown.refl h q
    | some a =>
      dsimp only
      by_cases hout : index < 0 ∨ index ≥ a.count
      · rw [if_pos hout]
        exact Grown.refl h q
      · rw [if_neg hout]
        have hown := own_flag (own_removeOwn a index.toNat) fromChildView
        have helements : a.count ≤ a.elements.length →
            ((a.removeOwn index.toNat).flag fromChildView).count ≤
                ((a.removeOwn index.toNat).flag fromChildView).elements.length ∧
              ∀ w ∈ ((a.removeOwn index.toNat).flag fromChildView).live, w ∈ a.live := by
          intro hsized
          have hnew : Rewritten a ((a.removeOwn index.toNat).flag fromChildView)
              (a.live.eraseIdx index.toNat) fromChildView :=
            rewritten_flag (rewritten_removeOwn hsized (by omega))
          refine ⟨hnew.sized, fun w hw => ?_⟩
          rw [hnew.live] at hw
          exact List.mem_of_mem_eraseIdx hw
        have hfirst := grown_set ha hown.toKept helements
          (fun hsame => absurd hsame.symm (Nat.ne_of_lt hown.changed)) q
        cases a.viewSource with
        | none => exact hfirst
        | some s =>
          dsimp only
          split_ifs
          · exact hfirst.trans (ih _ s _ true)
          · exact (hfirst.trans (ih _ s _ true)).trans (grown_refresh _ r s q)

end Grown

end Heap

namespace VM

/-- What is kept of a loop in progress: its array, the slot of its collection, and since its last
step: the index of the element of that round, whether it is still there, whether the array was
modified; and whether the round was only the report of a modification. -/
structure OpenLoop where
  ref : Ref
  slot : ℕ
  index : Option ℕ := none
  current : Bool := false
  modified : Bool := false
  reported : Bool := false

/-- Whose the record of the frame is: no loop's, that of the loop with its collection in this slot,
or that of a loop that was left by break in a round. -/
inductive Holder where
  | nobody
  | loop (slot : ℕ)
  | left

/-- The steps that use the record. -/
inductive NestStep where
  | next
  | remove

/-- The version of the array at `r`. -/
def version (vm : VM) (r : Ref) : ℕ := ((vm.objects.array? r).map (·.mutationVersion)).getD 0

namespace OpenLoop

/-- The loop after its array may have been modified in its body. -/
def mark (vm vm' : VM) (l : OpenLoop) : OpenLoop :=
  { l with modified := l.modified || (l.index.isSome && vm.version l.ref ≠ vm'.version l.ref) }

/-- The loop after a round. -/
def round (warned : Bool) (key : Value) (l : OpenLoop) : OpenLoop :=
  if warned then { l with current := false, modified := false, reported := true }
  else { l with
    index := some key.asNum.toNat
    current := true
    modified := false
    reported := false }

/-- The place of a loop in the frame `k`. -/
def place (k : ℕ) (l : OpenLoop) : LoopAt := ⟨k, l.slot, l.ref⟩

end OpenLoop

/-- The loops after `remove()`. -/
def afterRemove (vm vm' : VM) : List OpenLoop → List OpenLoop
  | [] => []
  | l :: rest => { l with current := false } :: rest.map (OpenLoop.mark vm vm')

/-- The holder after the loop `l` was left by break: its record stays if it is of a round for an
element. -/
def Holder.leave (l : OpenLoop) : Holder → Holder
  | .loop slot => if slot = l.slot then if l.current then .left else .nobody else .loop slot
  | holder => holder

/-- Two frames with the same record. -/
structure SameRecord (f f' : CallFrame) : Prop where
  pending : f'.foreachPending = f.foreachPending
  array : f'.foreachArray = f.foreachArray
  index : f'.foreachIndex = f.foreachIndex
  offset : f'.foreachIteratorOffset = f.foreachIteratorOffset
  active : f'.foreachActive = f.foreachActive
  iterationArray : f'.foreachIterationArray = f.foreachIterationArray
  iterationVersion : f'.foreachIterationVersion = f.foreachIterationVersion
  invalidated : f'.foreachInvalidated = f.foreachInvalidated

/-- Code between the steps of the loops.  It may modify their arrays, but not go back to an older
version. -/
structure Besides (k : ℕ) (loops : List OpenLoop) (vm vm' : VM) : Prop where
  frame : ∀ f, vm.frames[k]? = some f → ∃ f', vm'.frames[k]? = some f' ∧ SameRecord f f'
  stack : ∀ l ∈ loops, vm'.stack[l.slot]? = vm.stack[l.slot]? ∧
    vm'.stack[l.slot + 1]? = vm.stack[l.slot + 1]?
  arrays : ∀ l ∈ loops, Heap.Grown vm.objects vm'.objects l.ref

section

variable (sizeof : ObjType → ℕ) (fmt : Printf)
  (ok : List OpenLoop → Holder → VM → NestStep → Prop) (k : ℕ)

/-- The loops over arrays of the frame `k` that are in progress, the innermost one first, and the
holder of its record. -/
inductive NestRun : List OpenLoop → Holder → VM → Prop where
  | start {vm : VM} {f : CallFrame} (hframe : vm.frames[k]? = some f)
      (hidle : f.foreachPending = false) (hclean : f.foreachActive = false) :
      NestRun [] .nobody vm
  | other {loops : List OpenLoop} {holder : Holder} {vm vm' : VM} (hrun : NestRun loops holder vm)
      (hbesides : Besides k loops vm vm') :
      NestRun (loops.map (OpenLoop.mark vm vm')) holder vm'
  | enter {loops : List OpenLoop} {holder : Holder} {vm : VM} {r : Ref} {a : ArrayObj}
      (hrun : NestRun loops holder vm) (ha : Heap.ArrayAt vm.objects r a)
      (hroom : vm.stack.length + 2 ≤ stackMax) :
      NestRun ({ ref := r, slot := vm.stack.length } :: loops) holder
        ((vm.push (.obj r)).push (.num 0))
  | round {l : OpenLoop} {loops : List OpenLoop} {holder : Holder} {vm vm' : VM} {valueOnly : Bool}
      {offset : ℕ} {warned : Bool} {key value : Value} (hrun : NestRun (l :: loops) holder vm)
      (hframes : vm.frames.length = k + 1) (hstack : vm.stack.length = l.slot + 2)
      (hok : ok (l :: loops) holder vm .next)
      (hstep : foreachNext sizeof fmt valueOnly offset vm = .enter warned key value vm') :
      NestRun (l.round warned key :: loops) (.loop l.slot) vm'
  | exit {l : OpenLoop} {loops : List OpenLoop} {holder : Holder} {vm vm' : VM} {valueOnly : Bool}
      {offset : ℕ} (hrun : NestRun (l :: loops) holder vm)
      (hframes : vm.frames.length = k + 1) (hstack : vm.stack.length = l.slot + 2)
      (hok : ok (l :: loops) holder vm .next)
      (hstep : foreachNext sizeof fmt valueOnly offset vm = .exit vm') :
      NestRun loops .nobody { vm' with stack := vm'.stack.take l.slot }
  | leave {l : OpenLoop} {loops : List OpenLoop} {holder : Holder} {vm : VM}
      (hrun : NestRun (l :: loops) holder vm) :
      NestRun loops (holder.leave l) { vm with stack := vm.stack.take l.slot }
  | remove {loops : List OpenLoop} {holder : Holder} {vm : VM} (hrun : NestRun loops holder vm)
      (hframes : vm.frames.length = k + 1) (hok : ok loops holder vm .remove) :
      NestRun (afterRemove vm (removed fmt vm) loops) holder (removed fmt vm)

/-- In a run whose steps are `ok`, a modification of the array of a loop in its body is reported
at the next step of the loop, and `remove()` removes the current element of the innermost loop, and
is refused when there is none. -/
def NestLaw : Prop :=
  ∀ loops holder vm, NestRun sizeof fmt ok k loops holder vm → vm.frames.length = k + 1 →
    (∀ l rest valueOnly offset, loops = l :: rest → vm.stack.length = l.slot + 2 →
      l.modified = true → ok loops holder vm .next →
      (foreachNext sizeof fmt valueOnly offset vm).warns = true) ∧
    (ok loops holder vm .remove → match loops with
      | [] => vm.nativeRemove fmt = none
      | l :: _ => ∃ i vm', l.index = some i ∧ i < (vm.objects.shown l.ref).length ∧
          vm.nativeRemove fmt = some (vm', .obj l.ref) ∧
          vm'.objects.shown l.ref = (vm.objects.shown l.ref).eraseIdx i)

end

/-- The record is of the loop that the step is about. -/
def NestHeld (k : ℕ) : List OpenLoop → Holder → VM → NestStep → Prop
  | l :: _, holder, vm, .next => l.modified = true →
      holder = .loop l.slot ∧ l.reported = false ∧ vm.stack[l.slot + 1]? ≠ some (.num 0)
  | [], _, _, .next => True
  | l :: _, holder, _, .remove => holder = .loop l.slot ∧ l.current = true ∧ l.modified = false
  | [], holder, vm, .remove =>
      holder = .nobody ∧ ∀ i < k, ∀ f, vm.frames[i]? = some f → f.foreachActive = false

/-- The record of the frame `f` is of the loop `l`, whose array is `a` and whose iterator is `n`. -/
structure Held (f : CallFrame) (l : OpenLoop) (a : ArrayObj) (n : ℕ) : Prop where
  started : l.index.isSome
  active : f.foreachActive = l.current
  noted : l.reported = false → f.foreachIterationArray = some l.ref ∧
    f.foreachInvalidated = false ∧
    (l.modified = false → f.foreachIterationVersion = a.mutationVersion) ∧
    (l.modified = true → f.foreachIterationVersion < a.mutationVersion)
  current : l.current = true → ∃ i, l.index = some i ∧ n = i + 1 ∧
    f.foreachArray = some l.ref ∧ f.foreachIndex = i ∧
    f.foreachIteratorOffset = (l.slot + 1 : ℕ) ∧ (l.modified = false → i < a.count)

/-- A loop in progress: its slots are there, and its array. -/
structure Open (k : ℕ) (vm : VM) (l : OpenLoop) (a : ArrayObj) (n : ℕ) : Prop where
  progress : InProgress (l.place k) vm n
  array : Heap.ArrayAt vm.objects l.ref a
  fresh : l.index = none → n = 0

/-- The record of the frame is that of its holder. -/
def HeldBy (k : ℕ) (loops : List OpenLoop) (vm : VM) (f : CallFrame) : Holder → Prop
  | .nobody => f.foreachActive = false
  | .loop slot => ∃ l ∈ loops, l.slot = slot ∧ ∃ a n, Open k vm l a n ∧ Held f l a n
  | .left => True

/-- What holds along a run. -/
structure NestInv (k : ℕ) (loops : List OpenLoop) (holder : Holder) (vm : VM) : Prop where
  frame : ∃ f, vm.frames[k]? = some f ∧ f.foreachPending = false ∧ HeldBy k loops vm f holder
  opened : ∀ l ∈ loops, ∃ a n, Open k vm l a n
  apart : loops.Pairwise fun l m => m.slot + 2 ≤ l.slot

section Steps

variable {sizeof : ObjType → ℕ} {fmt : Printf} {k : ℕ} {loops rest : List OpenLoop}
  {holder : Holder} {vm vm' : VM} {l m : OpenLoop} {a b : ArrayObj} {n : ℕ} {f f' : CallFrame}

theorem version_eq (ha : Heap.ArrayAt vm.objects l.ref a) : vm.version l.ref = a.mutationVersion := by
  rw [version, ha.array]
  rfl

theorem Open.unique (ho : Open k vm l a n) {b : ArrayObj} {m : ℕ} (ho' : Open k vm l b m) :
    a = b ∧ n = m := by
  refine ⟨Option.some.inj (ho.array.array.symm.trans ho'.array.array), ?_⟩
  have hn := ho.progress.iterator.symm.trans ho'.progress.iterator
  exact Nat.cast_injective (Value.num.inj (Option.some.inj hn))

/-- A loop stays open when its slots and its array do. -/
theorem Open.steady (ho : Open k vm l a n) (hframes : k < vm'.frames.length)
    (hcollection : vm'.stack[l.slot]? = vm.stack[l.slot]?)
    (hiterator : vm'.stack[l.slot + 1]? = vm.stack[l.slot + 1]?)
    (hb : Heap.ArrayAt vm'.objects l.ref b) : Open k vm' l b n where
  progress := ⟨hframes, hcollection.trans ho.progress.collection,
    hiterator.trans ho.progress.iterator⟩
  array := hb
  fresh := ho.fresh

theorem Open.marked (ho : Open k vm l a n) (vm₁ vm₂ : VM) : Open k vm (l.mark vm₁ vm₂) a n :=
  ⟨ho.progress, ho.array, ho.fresh⟩

/-- Code between the steps leaves the record with its holder. -/
theorem Held.mark (hh : Held f l a n) (ha : Heap.ArrayAt vm.objects l.ref a)
    (hb : Heap.ArrayAt vm'.objects l.ref b) (hle : a.mutationVersion ≤ b.mutationVersion)
    (hcount : b.mutationVersion = a.mutationVersion → b.count = a.count)
    (hsame : SameRecord f f') : Held f' (l.mark vm vm') b n := by
  have hmark : (l.mark vm vm').modified =
      (l.modified || decide (a.mutationVersion ≠ b.mutationVersion)) := by
    rw [OpenLoop.mark, version_eq ha, version_eq hb, hh.started, Bool.true_and]
  refine ⟨hh.started, hsame.active.trans hh.active, fun hreported => ?_, fun hcurrent => ?_⟩
  · obtain ⟨harray, hvalid, hclean, hmodified⟩ := hh.noted hreported
    rw [hsame.iterationArray, hsame.invalidated, hsame.iterationVersion, hmark]
    refine ⟨harray, hvalid, fun hno => ?_, fun hyes => ?_⟩
    · rw [Bool.or_eq_false_iff, decide_eq_false_iff_not, not_not] at hno
      rw [hclean hno.1, hno.2]
    · cases hold : l.modified with
      | true => exact Nat.lt_of_lt_of_le (hmodified hold) hle
      | false =>
        -- the array was modified just now
        rw [hold, Bool.false_or, decide_eq_true_eq] at hyes
        rw [hclean hold]
        exact Nat.lt_of_le_of_ne hle hyes
  · obtain ⟨i, hi, hn, harray, hindex, hoffset, hin⟩ := hh.current hcurrent
    refine ⟨i, hi, hn, hsame.array.trans harray, hsame.index.trans hindex,
      hsame.offset.trans hoffset, fun hno => ?_⟩
    rw [hmark, Bool.or_eq_false_iff, decide_eq_false_iff_not, not_not] at hno
    rw [hcount hno.2.symm]
    exact hin hno.1

theorem NestInv.other (hi : NestInv k loops holder vm) (hb : Besides k loops vm vm') :
    NestInv k (loops.map (OpenLoop.mark vm vm')) holder vm' := by
  obtain ⟨f, hf, hidle, hheld⟩ := hi.frame
  obtain ⟨f', hf', hsame⟩ := hb.frame f hf
  have hframes : k < vm'.frames.length := (List.getElem?_eq_some_iff.1 hf').1
  have hopen : ∀ l ∈ loops, ∀ a n, Open k vm l a n → ∃ b, Open k vm' (l.mark vm vm') b n ∧
      a.mutationVersion ≤ b.mutationVersion ∧
      (b.mutationVersion = a.mutationVersion → b.count = a.count) := by
    intro l hl a n ho
    obtain ⟨b, hb', hle, hcount⟩ := hb.arrays l hl a ho.array
    exact ⟨b, (ho.steady hframes (hb.stack l hl).1 (hb.stack l hl).2 hb').marked vm vm', hle, hcount⟩
  refine ⟨⟨f', hf', hsame.pending.trans hidle, ?_⟩, ?_, ?_⟩
  · cases holder with
    | nobody => exact hsame.active.trans hheld
    | loop slot =>
      obtain ⟨l, hl, hslot, a, n, ho, hh⟩ := hheld
      obtain ⟨b, hob, hle, hcount⟩ := hopen l hl a n ho
      exact ⟨l.mark vm vm', List.mem_map_of_mem hl, hslot, b, n, hob,
        hh.mark ho.array hob.array hle hcount hsame⟩
    | left => trivial
  · intro l' hl'
    obtain ⟨l, hl, rfl⟩ := List.mem_map.1 hl'
    obtain ⟨a, n, ho⟩ := hi.opened l hl
    obtain ⟨b, hob, -⟩ := hopen l hl a n ho
    exact ⟨b, n, hob⟩
  · rw [List.pairwise_map]
    exact hi.apart

theorem Held.elements (hh : Held f l a n) (es : List Value) :
    Held f l { a with elements := es } n := ⟨hh.started, hh.active, hh.noted, hh.current⟩

/-! ### The steps of a loop -/

theorem notedFrame_array (r : Ref) (a : ArrayObj) (n : ℤ) (f : CallFrame) :
    (notedFrame r a n f).foreachIterationArray = some r := by
  unfold notedFrame noteArray
  split_ifs with hnew
  · rfl
  · rw [not_or, not_not] at hnew
    exact hnew.2

theorem notedFrame_zero (r : Ref) (a : ArrayObj) (f : CallFrame) :
    (notedFrame r a 0 f).foreachIterationVersion = a.mutationVersion ∧
      (notedFrame r a 0 f).foreachInvalidated = false := by
  rw [notedFrame, noteArray, if_pos (.inl rfl)]
  exact ⟨rfl, rfl⟩

theorem notedFrame_idle (r : Ref) (a : ArrayObj) (n : ℤ) (f : CallFrame) :
    (notedFrame r a n f).foreachActive = false ∧
      (notedFrame r a n f).foreachPending = f.foreachPending := by
  unfold notedFrame noteArray
  split_ifs <;> exact ⟨rfl, rfl⟩

/-- The innermost loop makes its next step. -/
theorem NestInv.head (hi : NestInv k (l :: rest) holder vm) (hframes : vm.frames.length = k + 1)
    (hstack : vm.stack.length = l.slot + 2) :
    ∃ f a n, vm.frames[k]? = some f ∧ f.foreachPending = false ∧ vm.currentFrame? = some f ∧
      HeldBy k (l :: rest) vm f holder ∧ Open k vm l a n ∧ AtHead vm l.ref n := by
  obtain ⟨f, hf, hidle, hheld⟩ := hi.frame
  obtain ⟨a, n, ho⟩ := hi.opened l List.mem_cons_self
  have hnext : AtNext (l.place k) vm := ⟨hframes, hstack, fun g hg => by
    rw [show vm.frames[k]? = some g from hg] at hf
    rw [Option.some.inj hf, hidle]⟩
  exact ⟨f, a, n, hf, hidle, hnext.currentFrame?.trans hf, hheld, ho, ho.progress.atHead hnext⟩

/-- The loops around the innermost one are below it on the stack. -/
theorem NestInv.below (hi : NestInv k (l :: rest) holder vm) (hm : m ∈ rest) :
    m.slot + 2 ≤ l.slot := (List.pairwise_cons.1 hi.apart).1 m hm

/-- A step of the innermost loop that goes on. -/
theorem NestInv.goOn {l' : OpenLoop} {g : CallFrame → CallFrame}
    (hi : NestInv k (l :: rest) holder vm) (hf : vm.frames[k]? = some f) (ho : Open k vm l a n)
    (hslot : l'.slot = l.slot) (href : l'.ref = l.ref)
    (hstack : vm'.stack = vm.stack.set (l.slot + 1) (.num (n + 1)))
    (hframes : vm'.frames = vm.frames.modify k g) (hidle : (g f).foreachPending = false)
    (harrays : ∀ q b, Heap.ArrayAt vm.objects q b →
      ∃ es, Heap.ArrayAt vm'.objects q { b with elements := es })
    (hheld : Held (g f) l' a (n + 1)) : NestInv k (l' :: rest) (.loop l.slot) vm' := by
  have hlen : vm'.frames.length = vm.frames.length := by rw [hframes, List.length_modify]
  obtain ⟨es, hes⟩ := harrays l.ref a ho.array
  have hopen : Open k vm' l' { a with elements := es } (n + 1) := by
    refine ⟨?_, by rwa [href], fun hno => ?_⟩
    · have hprogress := ho.progress.setIterator hstack hlen
      rw [OpenLoop.place, hslot, href]
      exact hprogress
    · have hstarted := hheld.started
      rw [hno] at hstarted
      cases hstarted
  refine ⟨⟨g f, ?_, hidle, l', List.mem_cons_self, hslot, _, _, hopen, hheld.elements es⟩, ?_, ?_⟩
  · rw [hframes, List.getElem?_modify_eq, hf]
    rfl
  · intro m hm
    rcases List.mem_cons.1 hm with rfl | hm
    · exact ⟨_, _, hopen⟩
    · obtain ⟨b, i, hom⟩ := hi.opened m (List.mem_cons_of_mem l hm)
      obtain ⟨fs, hfs⟩ := harrays m.ref b hom.array
      have hbelow := hi.below hm
      refine ⟨_, i, hom.steady (by rw [hlen]; exact hom.progress.frame) ?_ ?_ hfs⟩
      · rw [hstack, List.getElem?_set_ne (by omega)]
      · rw [hstack, List.getElem?_set_ne (by omega)]
  · rw [List.pairwise_cons, hslot]
    exact List.pairwise_cons.1 hi.apart

/-- A round makes the loop the holder of the record. -/
theorem NestInv.round {valueOnly warned : Bool} {offset : ℕ} {key value : Value}
    (hi : NestInv k (l :: rest) holder vm) (hframes : vm.frames.length = k + 1)
    (hstack : vm.stack.length = l.slot + 2)
    (hstep : foreachNext sizeof fmt valueOnly offset vm = .enter warned key value vm') :
    NestInv k (l.round warned key :: rest) (.loop l.slot) vm' := by
  obtain ⟨f, a, n, hf, hidle, hcurrent, -, ho, hh⟩ := hi.head hframes hstack
  have hlast : vm.frames.length - 1 = k := by omega
  have hslot : vm.stack.length - 1 = l.slot + 1 := by omega
  obtain ⟨hinactive, hpending⟩ := notedFrame_idle l.ref a n f
  -- a step that leaves the loop is no round
  have hno : foreachNext sizeof fmt valueOnly offset vm ≠
      (vm.modifyFrame (notedFrame l.ref a n)).leaveForeach offset := by
    rw [hstep, leaveForeach]
    exact ForeachStep.noConfusion
  by_cases hvalid : (notedFrame l.ref a n f).foreachInvalidated = true
  · refine absurd (arrayNext_leave sizeof fmt valueOnly offset hh ho.array.array fun g hg => ?_) hno
    rw [hcurrent] at hg
    exact .inl (Option.some.inj hg ▸ hvalid)
  rw [Bool.not_eq_true] at hvalid
  by_cases hstale : 0 < n ∧ (notedFrame l.ref a n f).foreachIterationVersion ≠ a.mutationVersion
  · -- the report
    obtain ⟨key', value', vm'', hstep', hstack', hframes', hobjects⟩ := arrayNext_stale sizeof fmt
      valueOnly offset hh ho.array.array (fun g hg => Option.some.inj (hcurrent.symm.trans hg) ▸ hvalid)
      (fun g hg => Option.some.inj (hcurrent.symm.trans hg) ▸ hstale)
    rw [hstep] at hstep'
    cases hstep'
    rw [hslot] at hstack'
    rw [hlast] at hframes'
    have hstarted : l.index.isSome := by
      rw [Option.isSome_iff_ne_none]
      intro hnone
      exact absurd (ho.fresh hnone) (Nat.ne_of_gt hstale.1)
    refine hi.goOn hf ho rfl rfl hstack' hframes' (hpending.trans hidle)
      (fun q b hb => ⟨b.elements, by rwa [hobjects]⟩) ⟨hstarted, hinactive, ?_, ?_⟩
    · intro hreported
      cases hreported
    · intro hcurrent
      cases hcurrent
  by_cases hlt : n < a.count
  · obtain ⟨value', vm'', hstep', hround⟩ := arrayNext_round sizeof fmt valueOnly offset hh ho.array
      hlt (fun g hg => Option.some.inj (hcurrent.symm.trans hg) ▸ hvalid)
      (fun g hg => Option.some.inj (hcurrent.symm.trans hg) ▸ hstale)
    rw [hstep] at hstep'
    cases hstep'
    obtain ⟨hstack', hframes', harrays, -, -⟩ := hround
    rw [hslot] at hstack'
    rw [hlast] at hframes'
    have hversion : (notedFrame l.ref a n f).foreachIterationVersion = a.mutationVersion := by
      rcases Nat.eq_zero_or_pos n with rfl | hpos
      · exact (notedFrame_zero l.ref a f).1
      · by_contra hne
        exact hstale ⟨hpos, hne⟩
    refine hi.goOn hf ho rfl rfl hstack' hframes' (hpending.trans hidle) harrays ⟨rfl, rfl, ?_, ?_⟩
    · intro _
      refine ⟨notedFrame_array l.ref a n f, hvalid, fun _ => hversion, fun hyes => ?_⟩
      cases hyes
    · intro _
      refine ⟨n, rfl, rfl, rfl, rfl, ?_, fun _ => hlt⟩
      show vm.top - 1 = ((l.slot + 1 : ℕ) : ℤ)
      rw [top, hstack]
      push_cast
      omega
  · refine absurd (arrayNext_leave sizeof fmt valueOnly offset hh ho.array.array fun g hg => ?_) hno
    rw [hcurrent] at hg
    obtain rfl := Option.some.inj hg
    exact .inr ⟨hstale, Nat.not_lt.1 hlt⟩

/-- The loops around one that is left stay open. -/
theorem NestInv.popped (hi : NestInv k (l :: rest) holder vm) (hm : m ∈ rest)
    (hstack : vm'.stack = vm.stack.take l.slot) (hframes : vm'.frames.length = vm.frames.length)
    (hobjects : vm'.objects = vm.objects) (ho : Open k vm m a n) : Open k vm' m a n := by
  have hbelow := hi.below hm
  refine ho.steady (by rw [hframes]; exact ho.progress.frame) ?_ ?_ (by rw [hobjects]; exact ho.array)
  · rw [hstack, List.getElem?_take, if_pos (by omega)]
  · rw [hstack, List.getElem?_take, if_pos (by omega)]

theorem NestInv.exit {valueOnly : Bool} {offset : ℕ} (hi : NestInv k (l :: rest) holder vm)
    (hframes : vm.frames.length = k + 1) (hstack : vm.stack.length = l.slot + 2)
    (hstep : foreachNext sizeof fmt valueOnly offset vm = .exit vm') :
    NestInv k rest .nobody { vm' with stack := vm'.stack.take l.slot } := by
  obtain ⟨f, a, n, hf, hidle, hcurrent, -, ho, hh⟩ := hi.head hframes hstack
  obtain ⟨hinactive, hpending⟩ := notedFrame_idle l.ref a n f
  have heq : foreachNext sizeof fmt valueOnly offset vm =
      (vm.modifyFrame (notedFrame l.ref a n)).leaveForeach offset := by
    refine arrayNext_leave sizeof fmt valueOnly offset hh ho.array.array fun g hg => ?_
    obtain rfl := Option.some.inj (hcurrent.symm.trans hg)
    by_contra hno
    rw [not_or, Bool.not_eq_true, not_and_or, not_not, not_le] at hno
    obtain ⟨hvalid, hstale | hlt⟩ := hno
    · obtain ⟨key, value, vm'', hstep', -⟩ := arrayNext_stale sizeof fmt valueOnly offset hh
        ho.array.array (fun g hg => Option.some.inj (hcurrent.symm.trans hg) ▸ hvalid)
        (fun g hg => Option.some.inj (hcurrent.symm.trans hg) ▸ hstale)
      rw [hstep] at hstep'
      cases hstep'
    · by_cases hstale : 0 < n ∧ (notedFrame l.ref a n f).foreachIterationVersion ≠ a.mutationVersion
      · obtain ⟨key, value, vm'', hstep', -⟩ := arrayNext_stale sizeof fmt valueOnly offset hh
          ho.array.array (fun g hg => Option.some.inj (hcurrent.symm.trans hg) ▸ hvalid)
          (fun g hg => Option.some.inj (hcurrent.symm.trans hg) ▸ hstale)
        rw [hstep] at hstep'
        cases hstep'
      · obtain ⟨value, vm'', hstep', -⟩ := arrayNext_round sizeof fmt valueOnly offset hh ho.array
          hlt (fun g hg => Option.some.inj (hcurrent.symm.trans hg) ▸ hvalid)
          (fun g hg => Option.some.inj (hcurrent.symm.trans hg) ▸ hstale)
        rw [hstep] at hstep'
        cases hstep'
  rw [heq, leaveForeach] at hstep
  cases hstep
  have hlast : vm.frames.length - 1 = k := by omega
  refine ⟨⟨{ notedFrame l.ref a n f with
    ip := (notedFrame l.ref a n f).ip + offset
    foreachIterationArray := none
    foreachInvalidated := false }, ?_, hpending.trans hidle, hinactive⟩, fun m hm => ?_,
    (List.pairwise_cons.1 hi.apart).2⟩
  · simp [modifyFrame, hlast, hf]
  · obtain ⟨b, i, hom⟩ := hi.opened m (List.mem_cons_of_mem l hm)
    exact ⟨b, i, hi.popped hm rfl (by simp [modifyFrame]) rfl hom⟩

theorem NestInv.leave (hi : NestInv k (l :: rest) holder vm) :
    NestInv k rest (holder.leave l) { vm with stack := vm.stack.take l.slot } := by
  obtain ⟨f, hf, hidle, hheld⟩ := hi.frame
  refine ⟨⟨f, hf, hidle, ?_⟩, fun m hm => ?_, (List.pairwise_cons.1 hi.apart).2⟩
  · cases holder with
    | nobody => exact hheld
    | left => trivial
    | loop slot =>
      obtain ⟨m, hm, rfl, a, n, ho, hh⟩ := hheld
      rw [Holder.leave]
      rcases List.mem_cons.1 hm with rfl | hm
      · rw [if_pos rfl]
        split_ifs with hcurrent
        · trivial
        · exact hh.active.trans (by simpa using hcurrent)
      · have hbelow := hi.below hm
        rw [if_neg (by omega)]
        exact ⟨m, hm, rfl, a, n, hi.popped hm rfl rfl rfl ho, hh⟩
  · obtain ⟨b, i, hom⟩ := hi.opened m (List.mem_cons_of_mem l hm)
    exact ⟨b, i, hi.popped hm rfl rfl rfl hom⟩

theorem NestInv.enter {r : Ref} (hi : NestInv k loops holder vm) (ha : Heap.ArrayAt vm.objects r a)
    (hroom : vm.stack.length + 2 ≤ stackMax) :
    NestInv k ({ ref := r, slot := vm.stack.length } :: loops) holder
      ((vm.push (.obj r)).push (.num 0)) := by
  have hpush : (vm.push (.obj r)).push (.num 0) =
      { vm with stack := vm.stack ++ [.obj r] ++ [.num 0] } := by
    rw [push_of_lt vm _ (by omega), push_of_lt _ _ (by simp; omega)]
  have hbelow : ∀ {m a n}, Open k vm m a n → m.slot + 1 < vm.stack.length := fun ho =>
    (List.getElem?_eq_some_iff.1 ho.progress.iterator).1
  have hopen : ∀ {m a n}, Open k vm m a n →
      Open k { vm with stack := vm.stack ++ [.obj r] ++ [.num 0] } m a n := by
    intro m a n ho
    have hlt := hbelow ho
    refine ho.steady ho.progress.frame ?_ ?_ ho.array
    · rw [List.append_assoc, List.getElem?_append_left (by omega)]
    · rw [List.append_assoc, List.getElem?_append_left hlt]
  obtain ⟨f, hf, hidle, hheld⟩ := hi.frame
  rw [hpush]
  refine ⟨⟨f, hf, hidle, ?_⟩, fun m hm => ?_, List.pairwise_cons.2 ⟨fun m hm => ?_, hi.apart⟩⟩
  · cases holder with
    | nobody => exact hheld
    | left => trivial
    | loop slot =>
      obtain ⟨m, hm, hslot, a, n, ho, hh⟩ := hheld
      exact ⟨m, List.mem_cons_of_mem _ hm, hslot, a, n, hopen ho, hh⟩
  · rcases List.mem_cons.1 hm with rfl | hm
    · refine ⟨a, 0, ⟨(List.getElem?_eq_some_iff.1 hf).1, ?_, ?_⟩, ha, fun _ => rfl⟩
      · simp [OpenLoop.place]
      · simp [OpenLoop.place]
    · obtain ⟨b, i, hom⟩ := hi.opened m hm
      exact ⟨b, i, hopen hom⟩
  · obtain ⟨b, i, hom⟩ := hi.opened m hm
    exact hbelow hom

/-! ### Removal -/

/-- The frame with an active record on top of the stack of frames is the target. -/
theorem removeTarget?_of_active (hframes : vm.frames.length = k + 1) (hf : vm.frames[k]? = some f)
    (hactive : f.foreachActive = true) (harray : f.foreachArray = some l.ref) :
    vm.removeTarget? = some k := by
  rw [removeTarget?, hframes, List.range_succ, List.reverse_append, List.reverse_singleton,
    List.singleton_append, List.find?_cons, hf]
  simp [hactive, harray]

/-- Without an active record `remove()` is refused. -/
theorem nativeRemove_of_inactive (hinactive : ∀ (i : ℕ) (f : CallFrame),
    vm.frames[i]? = some f → f.foreachActive = false) : vm.nativeRemove fmt = none := by
  have hnone : vm.removeTarget? = none := by
    rw [removeTarget?, List.find?_eq_none]
    intro i _
    cases hf : vm.frames[i]? with
    | none => simp
    | some f => simp [hinactive i f hf]
  rw [nativeRemove, hnone]

/-- What the removal of the current element does. -/
theorem Held.remove (fmt : Printf) (hframes : vm.frames.length = k + 1) (hf : vm.frames[k]? = some f)
    (ho : Open k vm l a n) (hh : Held f l a n) (hcurrent : l.current = true) :
    ∃ i vm', l.index = some i ∧ n = i + 1 ∧ (l.modified = false → i < a.count) ∧
      vm.nativeRemove fmt = some (vm', .obj l.ref) ∧
      vm'.objects = vm.objects.change l.ref (.removeAt i) ∧
      vm'.stack = vm.stack.set (l.slot + 1) (.num i) ∧
      vm'.frames = vm.frames.set k { f with
        foreachIterationVersion := vm'.version l.ref
        foreachArray := none
        foreachHash := none
        foreachActive := false } := by
  obtain ⟨i, hi, hn, harray, hindex, hoffset, hin⟩ := hh.current hcurrent
  have htarget := removeTarget?_of_active hframes hf (hh.active.trans hcurrent) harray
  obtain ⟨hobjects, hstack, hframes'⟩ := removed_of_target fmt htarget hf hoffset
    ho.progress.iterator
  have hrecord : removeRecorded fmt vm.objects f =
      ({ f with foreachIterationVersion := (((vm.objects.change l.ref (.removeAt i)).array?
          l.ref).map (·.mutationVersion)).getD 0 }, vm.objects.change l.ref (.removeAt i)) := by
    rw [removeRecorded, harray, hindex]
  rw [hrecord] at hobjects hframes'
  have hnative : vm.nativeRemove fmt = some (removed fmt vm, .obj l.ref) := by
    rw [removed, nativeRemove, htarget]
    dsimp only
    rw [hf]
    dsimp only
    rw [harray]
    rfl
  refine ⟨i, _, hi, hn, hin, hnative, hobjects, ?_, ?_⟩
  · rw [hstack, hn]
    push_cast
    rw [Int.add_sub_cancel]
  · rw [hframes', version, hobjects]

theorem NestInv.holds (hi : NestInv k (l :: rest) holder vm)
    (hheld : HeldBy k (l :: rest) vm f (.loop l.slot)) : ∃ a n, Open k vm l a n ∧ Held f l a n := by
  obtain ⟨m, hm, hslot, a, n, ho, hh⟩ := hheld
  rcases List.mem_cons.1 hm with rfl | hm
  · exact ⟨a, n, ho, hh⟩
  · exact absurd (hi.below hm) (by omega)

theorem NestInv.removed_nil (hi : NestInv k [] .nobody vm) (hframes : vm.frames.length = k + 1)
    (hothers : ∀ i < k, ∀ f, vm.frames[i]? = some f → f.foreachActive = false) :
    vm.nativeRemove fmt = none := by
  obtain ⟨f, hf, -, hinactive⟩ := hi.frame
  refine nativeRemove_of_inactive fun i g hg => ?_
  have hlt := (List.getElem?_eq_some_iff.1 hg).1
  rcases Nat.lt_or_ge i k with hik | hik
  · exact hothers i hik g hg
  · obtain rfl : i = k := by omega
    obtain rfl := Option.some.inj (hf.symm.trans hg)
    exact hinactive

theorem NestInv.remove (hi : NestInv k (l :: rest) (.loop l.slot) vm)
    (hframes : vm.frames.length = k + 1) (hcurrent : l.current = true)
    (hclean : l.modified = false) :
    NestInv k (afterRemove vm (removed fmt vm) (l :: rest)) (.loop l.slot) (removed fmt vm) := by
  obtain ⟨f, hf, hidle, hheld⟩ := hi.frame
  obtain ⟨a, n, ho, hh⟩ := hi.holds hheld
  obtain ⟨i, vm', hindex, hn, hin, hnative, hobjects, hstack, hframes'⟩ :=
    hh.remove fmt hframes hf ho hcurrent
  have hremoved : removed fmt vm = vm' := by rw [removed, hnative]
  rw [hremoved]
  have hlen : vm'.frames.length = vm.frames.length := by rw [hframes', List.length_set]
  have hgrown : ∀ q, Heap.Grown vm.objects vm'.objects q := by
    intro q
    rw [hobjects]
    exact Heap.grown_removeInternal _ _ _ _ _ q
  obtain ⟨b, hb, hle, -⟩ := hgrown l.ref a ho.array
  have hopen : Open k vm' { l with current := false } b i :=
    ⟨ho.progress.setIterator hstack hlen, hb, fun hno => by
      rw [show l.index = none from hno] at hindex
      cases hindex⟩
  refine ⟨⟨{ f with
    foreachIterationVersion := vm'.version l.ref
    foreachArray := none
    foreachHash := none
    foreachActive := false }, ?_, hidle, { l with current := false }, List.mem_cons_self, rfl, b, i,
    hopen, hh.started, rfl, fun hreported => ?_, fun hno => ?_⟩, fun m hm => ?_, ?_⟩
  · rw [hframes', List.getElem?_set_self (List.getElem?_eq_some_iff.1 hf).1]
  · -- the removal noted its own version
    obtain ⟨harray, hvalid, -, -⟩ := hh.noted hreported
    have hversion : vm'.version l.ref = b.mutationVersion := version_eq hb
    refine ⟨harray, hvalid, fun _ => hversion, fun hyes => ?_⟩
    rw [show l.modified = true from hyes] at hclean
    cases hclean
  · cases hno
  · rcases List.mem_cons.1 hm with rfl | hm
    · exact ⟨b, i, hopen⟩
    · obtain ⟨x, hx, rfl⟩ := List.mem_map.1 hm
      obtain ⟨c, j, hom⟩ := hi.opened x (List.mem_cons_of_mem l hx)
      obtain ⟨d, hd, -⟩ := hgrown x.ref c hom.array
      have hbelow := hi.below hx
      refine ⟨d, j, (hom.steady (by rw [hlen]; exact hom.progress.frame) ?_ ?_ hd).marked vm vm'⟩
      · rw [hstack, List.getElem?_set_ne (by omega)]
      · rw [hstack, List.getElem?_set_ne (by omega)]
  · rw [afterRemove, List.pairwise_cons, List.pairwise_map]
    refine ⟨fun m hm => ?_, (List.pairwise_cons.1 hi.apart).2⟩
    obtain ⟨x, hx, rfl⟩ := List.mem_map.1 hm
    show x.slot + 2 ≤ l.slot
    exact hi.below hx

/-! ### The law -/

/-- As long as the record is of the loop that a step is about, it stays the one of its holder. -/
theorem NestRun.inv (hrun : NestRun sizeof fmt (NestHeld k) k loops holder vm) :
    NestInv k loops holder vm := by
  induction hrun with
  | start hframe hidle hclean =>
    exact ⟨⟨_, hframe, hidle, hclean⟩, fun l hl => absurd hl List.not_mem_nil, List.Pairwise.nil⟩
  | other _ hbesides ih => exact ih.other hbesides
  | enter _ ha hroom ih => exact ih.enter ha hroom
  | round _ hframes hstack _ hstep ih => exact ih.round hframes hstack hstep
  | exit _ hframes hstack _ hstep ih => exact ih.exit hframes hstack hstep
  | leave _ ih => exact ih.leave
  | @remove loops holder vm _ hframes hok ih =>
    cases loops with
    | nil =>
      obtain ⟨rfl, hothers⟩ := hok
      rw [removed, ih.removed_nil hframes hothers]
      exact ih
    | cons l rest =>
      obtain ⟨rfl, hcurrent, hclean⟩ := hok
      exact ih.remove hframes hcurrent hclean

/-- When the record is of the loop that a step is about, modifications are reported and `remove()`
removes the current element. -/
theorem nestLaw_of_held (sizeof : ObjType → ℕ) (fmt : Printf) (k : ℕ) :
    NestLaw sizeof fmt (NestHeld k) k := by
  intro loops holder vm hrun hframes
  have hi := hrun.inv
  constructor
  · rintro l rest valueOnly offset rfl hstack hmodified hok
    obtain ⟨rfl, hreported, hiterator⟩ := hok hmodified
    obtain ⟨f, a, n, hf, hidle, hcurrent, hheld, ho, hh⟩ := hi.head hframes hstack
    obtain ⟨b, j, ho', hrecord⟩ := hi.holds hheld
    obtain ⟨rfl, rfl⟩ := ho.unique ho'
    obtain ⟨harray, hvalid, -, hless⟩ := hrecord.noted hreported
    have hpos : 0 < n := by
      rcases Nat.eq_zero_or_pos n with rfl | hpos
      · exact absurd ho.progress.iterator hiterator
      · exact hpos
    have hframe : notedFrame l.ref a n f = foreachReset f := by
      rw [notedFrame, noteArray, if_neg]
      rintro (hzero | hother)
      · omega
      · exact hother harray
    obtain ⟨key, value, vm', hstep, -⟩ := arrayNext_stale sizeof fmt valueOnly offset hh
      ho.array.array
      (fun g hg => by rw [← Option.some.inj (hcurrent.symm.trans hg), hframe]; exact hvalid)
      (fun g hg => by
        rw [← Option.some.inj (hcurrent.symm.trans hg), hframe]
        exact ⟨hpos, Nat.ne_of_lt (hless hmodified)⟩)
    rw [hstep]
    rfl
  · intro hok
    cases loops with
    | nil =>
      obtain ⟨rfl, hothers⟩ := hok
      exact hi.removed_nil hframes hothers
    | cons l rest =>
      obtain ⟨rfl, hcurrent, hclean⟩ := hok
      obtain ⟨f, hf, -, hheld⟩ := hi.frame
      obtain ⟨a, n, ho, hh⟩ := hi.holds hheld
      obtain ⟨i, vm', hindex, -, hin, hnative, hobjects, -⟩ :=
        hh.remove fmt hframes hf ho hcurrent
      refine ⟨i, vm', hindex, ?_, hnative, ?_⟩
      · rw [ho.array.length_shown]
        exact hin hclean
      · rw [hobjects]
        exact (ho.array.removeAt (hin hclean)).2

end Steps

/-! ### A loop that is left by break -/

/-- The loop over an array with one element, after its first round. -/
theorem nestRun_firstRound (ok : List OpenLoop → Holder → VM → NestStep → Prop)
    (hok : ok [{ ref := 1, slot := 0 }] .nobody arrayLoopVM .next) :
    NestRun (fun _ => 0) noText ok 0
      [{ ref := 1, slot := 0, index := some 0, current := true }] (.loop 0) firstRound := by
  have hstart : NestRun (fun _ => 0) noText ok 0 [] .nobody { arrayLoopVM with stack := [] } :=
    .start rfl rfl rfl
  have henter := hstart.enter (r := 1) arrayAt_arrayLoopVM (by decide)
  exact henter.round rfl rfl hok foreachNext_arrayLoopVM

theorem nestLaw_of_held_firstRound :
    ∃ vm', firstRound.nativeRemove noText = some (vm', .obj 1) ∧
      vm'.objects.shown 1 = (firstRound.objects.shown 1).eraseIdx 0 := by
  have hrun := nestRun_firstRound (NestHeld 0) fun hno => absurd hno (by decide)
  obtain ⟨i, vm', hi, -, hnative, hshown⟩ :=
    (nestLaw_of_held (fun _ => 0) noText 0 _ _ _ hrun (by decide)).2 ⟨rfl, rfl, rfl⟩
  obtain rfl : 0 = i := Option.some.inj hi
  exact ⟨vm', hnative, hshown⟩

/-- After a break `remove()` still removes from the loop that was left. -/
theorem not_nestLaw_break :
    ¬∀ (sizeof : ObjType → ℕ) (fmt : Printf) (k : ℕ),
      NestLaw sizeof fmt (fun _ _ _ _ => True) k := by
  intro hall
  have hrun := (nestRun_firstRound (fun _ _ _ _ => True) trivial).leave
  have hrefused := (hall (fun _ => 0) noText 0 _ _ _ hrun (by decide)).2 trivial
  have hsome : (VM.nativeRemove noText { firstRound with stack := firstRound.stack.take 0 }).isSome :=
    by decide
  rw [show VM.nativeRemove noText { firstRound with stack := firstRound.stack.take 0 } = none from
    hrefused] at hsome
  cases hsome

end VM

end Slp
