import Slp.Object.Labels
import Slp.Vm.ForeachRemove

/-!
# Removing from a loop over a hash

A deletion leaves a tombstone and shifts the ordinals behind it by one, as the iterator.  Without
null values a step stops at the ordinal of the iterator, so that the loop is a pass over the
entries (`hashSteps`).
-/

namespace Slp

namespace HashObj

section Delete

variable {fmt : Printf} {h : Heap} {r q : Ref} {t t' : HashObj} {n p : ℕ} {es : List HashEntry}
  {key : Value}

/-- The text of a key does not depend on the contents of a table. -/
theorem keyRepr_setHash (hr : h.get? r = some (.hash t)) (key : Value) :
    keyRepr fmt (h.set r (.hash t')) key = keyRepr fmt h key := by
  have hderef : ∀ fuel v, (h.set r (.hash t')).derefLoop fuel v = h.derefLoop fuel v := by
    intro fuel
    induction fuel with
    | zero => exact fun _ => rfl
    | succ fuel ih =>
      rintro (_ | _ | _ | q)
      · rfl
      · rfl
      · rfl
      · rw [Heap.derefLoop, Heap.derefLoop, Heap.get?_set hr]
        by_cases hq : r = q
        · rw [if_pos hq, ← hq, hr]
        · rw [if_neg hq]
          simp only [ih]
  have hunwrap : ∀ fuel v, (h.set r (.hash t')).unwrapLoop fuel v = h.unwrapLoop fuel v := by
    intro fuel
    induction fuel with
    | zero => exact fun _ => rfl
    | succ fuel ih =>
      rintro (_ | _ | _ | q)
      · rfl
      · rfl
      · rfl
      · rw [Heap.unwrapLoop, Heap.unwrapLoop, Heap.get?_set hr]
        by_cases hq : r = q
        · rw [if_pos hq, ← hq, hr]
        · rw [if_neg hq]
          simp only [ih]
  unfold keyRepr
  rw [Heap.dereferenceValue, Heap.dereferenceValue, Heap.unwrapTaint, Heap.unwrapTaint,
    Heap.length_set, hderef, hunwrap]
  split
  · rfl
  · rfl
  · rfl
  · rename_i q _
    rw [Heap.get?_set hr]
    by_cases hq : r = q
    · rw [if_pos hq, ← hq, hr]
    · rw [if_neg hq]

/-- What a table without its entry at an ordinal is: the entries behind it move up. -/
theorem InOrder.deleteOrdinal (ho : InOrder t es) (hn : orderedIndex fmt h t n = some p)
    (hfound : lookup fmt h t key = some p) :
    (∃ es', InOrder (HashObj.delete fmt h t key).1 es') ∧
      (HashObj.delete fmt h t key).1.liveEntries ⊆ t.liveEntries ∧
      inOrder fmt h (HashObj.delete fmt h t key).1 = (inOrder fmt h t).eraseIdx n := by
  obtain ⟨hindex, hperm, -⟩ := ordered_spec fmt h ho.sized ho.nodup_sequence
  have hlt : n < t.count := by
    rw [orderedIndex] at hn
    split_ifs at hn with hout
    omega
  rw [hindex n hlt] at hn
  obtain ⟨e, he, hlive⟩ := ho.sized.lookup_some hfound
  obtain ⟨l₁, l₂, rfl⟩ := ho.split he hlive
  rw [delete_some hfound]
  dsimp only
  have hdead : ({ key := .null, value := .bool true, sequence := 0 } : HashEntry).mark ≠ .live := by
    decide
  have ho' : InOrder { t with
      entries := t.entries.set p { key := .null, value := .bool true, sequence := 0 }
      count := t.count - 1 } (l₁ ++ l₂) := ho.remove _ he hlive hdead rfl rfl rfl
  have hdrop := Table.live_set_dead he hlive hdead
  refine ⟨⟨_, ho'⟩, fun x hx => hdrop.mem_iff.2 (List.mem_cons_of_mem _ hx), ?_⟩
  obtain ⟨hlen, hnp⟩ := List.getElem?_eq_some_iff.1 hn
  have hsplit : ordered fmt h t =
      (ordered fmt h t).take n ++ p :: (ordered fmt h t).drop (n + 1) := by
    rw [← hnp, List.getElem_cons_drop, List.take_append_drop]
  have hrest := ordered_remove ho'.sized ho.sized ho.nodup_sequence hdead rfl rfl hsplit
  rw [inOrder, hrest, inOrder, List.eraseIdx_map, List.eraseIdx_eq_take_drop_succ]
  refine List.map_congr_left fun x hx => ?_
  -- the slots that are left hold what they held
  have hne : x ≠ p := by
    rintro rfl
    have hnodup := hperm.nodup_iff.2 (nodup_slots t)
    rw [hsplit, List.nodup_middle, List.nodup_cons] at hnodup
    exact hnodup.1 hx
  dsimp only
  rw [List.getD_eq_getElem?_getD, List.getElem?_set_ne hne.symm, ← List.getD_eq_getElem?_getD]

end Delete

end HashObj

namespace VM

/-- The entries of the hash at `r`, by ordinal. -/
def hashContent (fmt : Printf) (r : Ref) (vm : VM) : List HashEntry :=
  match vm.objects.get? r with
  | some (.hash t) => t.inOrder fmt vm.objects
  | _ => []

/-- Code that leaves the loop and its hash alone. -/
structure HashQuiet (fmt : Printf) (l : LoopAt) (vm vm' : VM) : Prop where
  frame : l.frame < vm'.frames.length
  collection : vm'.stack[l.slot]? = vm.stack[l.slot]?
  iterator : vm'.stack[l.slot + 1]? = vm.stack[l.slot + 1]?
  hash : vm'.objects.get? l.ref = vm.objects.get? l.ref
  texts : ∀ t, vm.objects.get? l.ref = some (.hash t) → ∀ e ∈ t.liveEntries,
    HashObj.keyRepr fmt vm'.objects e.key = HashObj.keyRepr fmt vm.objects e.key

/-- `remove()` finds the record of the last round of this loop, and the key in it is found at its
entry. -/
structure HashHeld (fmt : Printf) (l : LoopAt) (vm : VM) : Prop where
  target : vm.removeTarget? = some l.frame
  record : ∀ f, vm.frames[l.frame]? = some f → f.foreachArray = none ∧
    f.foreachHash = some l.ref ∧ f.foreachIteratorOffset = (l.slot + 1 : ℕ) ∧
    ∀ t n, vm.objects.get? l.ref = some (.hash t) → vm.stack[l.slot + 1]? = some (.num (n + 1)) →
      (t.lookup fmt vm.objects f.foreachKey).isSome ∧
        t.lookup fmt vm.objects f.foreachKey = t.orderedIndex fmt vm.objects n

/-- The state of a loop over a hash without null values. -/
structure HashInv (l : LoopAt) (vm : VM) (n : ℕ) : Prop where
  progress : InProgress l vm n
  hash : ∃ t es, vm.objects.get? l.ref = some (.hash t) ∧ HashObj.InOrder t es ∧
    ∀ e ∈ t.liveEntries, e.value ≠ .null

section Hashes

variable {l : LoopAt} {vm vm' : VM} {r : Ref} {n p : ℕ} {t : HashObj} {es : List HashEntry}
  {e : HashEntry}

theorem hashContent_eq {fmt : Printf} (ht : vm.objects.get? r = some (.hash t)) :
    hashContent fmt r vm = t.inOrder fmt vm.objects := by
  rw [hashContent, ht]

/-- The slot of an ordinal, and its entry. -/
theorem exists_slot {fmt : Printf} (ho : HashObj.InOrder t es) {h : Heap}
    (he : (t.inOrder fmt h)[n]? = some e) :
    ∃ p, t.orderedIndex fmt h n = some p ∧ n < t.count ∧ t.entries.getD p {} = e ∧
      e ∈ t.liveEntries := by
  obtain ⟨hindex, hperm, -⟩ := HashObj.ordered_spec fmt h ho.sized ho.nodup_sequence
  rw [HashObj.inOrder, List.getElem?_map] at he
  obtain ⟨p, hp, rfl⟩ := Option.map_eq_some_iff.1 he
  have hlt : n < t.count := by
    rw [← ho.sized.length_slots, ← hperm.length_eq]
    exact (List.getElem?_eq_some_iff.1 hp).1
  obtain ⟨x, hx, hlive⟩ := HashObj.mem_slots.1 (hperm.mem_iff.1 (List.mem_of_getElem? hp))
  refine ⟨p, by rw [hindex n hlt, hp], hlt, rfl, ?_⟩
  rw [HashObj.getD_of_getElem? hx]
  exact HashObj.mem_liveEntries.2 ⟨p, hx, hlive⟩

theorem count_le_of_getElem? {fmt : Printf} (ho : HashObj.InOrder t es) {h : Heap}
    (hn : (t.inOrder fmt h)[n]? = none) : t.count ≤ n := by
  obtain ⟨-, hperm, -⟩ := HashObj.ordered_spec fmt h ho.sized ho.nodup_sequence
  rw [HashObj.inOrder, List.getElem?_eq_none_iff, List.length_map, hperm.length_eq,
    ho.sized.length_slots] at hn
  exact hn

variable (sizeof : ObjType → ℕ) (fmt : Printf) (valueOnly : Bool) (offset : ℕ)

/-- Without null values a step makes a round for the entry under the iterator. -/
theorem hashNext_round (hh : AtHead vm r n) (ht : vm.objects.get? r = some (.hash t))
    (hn : n < t.count) (hp : t.orderedIndex fmt vm.objects n = some p)
    (hvalue : (t.entries.getD p {}).value ≠ .null) :
    ∃ vm', foreachNext sizeof fmt valueOnly offset vm =
        .enter false (t.entries.getD p {}).key (binding valueOnly (t.entries.getD p {})).2 vm' ∧
      vm'.stack = vm.stack.set (vm.stack.length - 1) (.num (n + 1)) ∧
      vm'.frames.length = vm.frames.length ∧ vm'.objects = vm.objects := by
  obtain ⟨f, -, -, heq⟩ := foreachNext_hash sizeof fmt valueOnly offset hh ht
  have hskip : t.skipNull fmt vm.objects (t.count - (n : ℤ)).toNat n none = ((n : ℤ), some p) := by
    rw [show (t.count - (n : ℤ)).toNat = t.count - n by omega, HashObj.skipNull_step hn hp,
      if_neg hvalue]
  rw [hashStep, modifyFrame_objects, hskip] at heq
  refine ⟨_, heq, ?_, ?_, rfl⟩
  · show vm.stack.set (vm.top - 1).toNat _ = _
    rw [toNat_top_sub_one]
  · show List.length (List.modify _ _ _) = _
    rw [List.length_modify]
    exact List.length_modify _ _ _

/-- The step behind the last entry leaves the loop. -/
theorem hashNext_leave (hh : AtHead vm r n) (ht : vm.objects.get? r = some (.hash t))
    (hn : t.count ≤ n) : (foreachNext sizeof fmt valueOnly offset vm).exits = true ∧
      (foreachNext sizeof fmt valueOnly offset vm).vm.objects = vm.objects := by
  obtain ⟨f, -, -, heq⟩ := foreachNext_hash sizeof fmt valueOnly offset hh ht
  rw [hashStep, show (t.count - (n : ℤ)).toNat = 0 by omega, HashObj.skipNull] at heq
  rw [heq]
  exact ⟨rfl, rfl⟩

theorem hashSteps : PassSteps sizeof fmt valueOnly offset l (HashQuiet fmt l) (HashHeld fmt l)
    (fun _ key value => (key, value)) (hashContent fmt l.ref) (binding valueOnly) (HashInv l) where
  round vm n e hinv hn he := by
    obtain ⟨t, es, ht, ho, hvalues⟩ := hinv.hash
    rw [hashContent_eq ht] at he
    obtain ⟨p, hp, hlt, rfl, hlive⟩ := exists_slot ho he
    obtain ⟨vm', hstep, hstack, hframes, hobjects⟩ := hashNext_round sizeof fmt valueOnly offset
      (hinv.progress.atHead hn) ht hlt hp
      (hvalues _ hlive)
    refine ⟨_, _, _, vm', hstep, ⟨hinv.progress.setIterator ?_ hframes, t, es, ?_, ho, hvalues⟩,
      ?_, rfl⟩
    · rw [hstack, hn.stack]
      rfl
    · rw [hobjects, ht]
    · rw [hashContent, hashContent, hobjects]
  exit vm n hinv hn he := by
    obtain ⟨t, es, ht, ho, -⟩ := hinv.hash
    rw [hashContent_eq ht] at he
    obtain ⟨hexit, hobjects⟩ := hashNext_leave sizeof fmt valueOnly offset
      (hinv.progress.atHead hn) ht
      (count_le_of_getElem? ho he)
    exact ⟨hexit, by rw [hashContent, hashContent, hobjects]⟩
  other vm vm' n hinv hquiet := by
    obtain ⟨t, es, ht, ho, hvalues⟩ := hinv.hash
    have ht' : vm'.objects.get? l.ref = some (.hash t) := hquiet.hash.trans ht
    refine ⟨⟨⟨hquiet.frame, hquiet.collection.trans hinv.progress.collection,
      hquiet.iterator.trans hinv.progress.iterator⟩, t, es, ht', ho, hvalues⟩, ?_⟩
    rw [hashContent_eq ht, hashContent_eq ht', HashObj.inOrder, HashObj.inOrder,
      HashObj.ordered_congr (hquiet.texts t ht)]
  remove vm n hinv hlt hheld := by
    obtain ⟨t, es, ht, ho, hvalues⟩ := hinv.hash
    obtain ⟨f, hf⟩ : ∃ f, vm.frames[l.frame]? = some f :=
      ⟨_, List.getElem?_eq_getElem hinv.progress.frame⟩
    obtain ⟨harray, hhash, hoffset, hkey⟩ := hheld.record f hf
    have hiterator : vm.stack[l.slot + 1]? = some (.num ((n : ℤ) + 1)) := by
      rw [hinv.progress.iterator]
      push_cast
      rfl
    obtain ⟨hsome, hfound⟩ := hkey t n ht hiterator
    obtain ⟨p, hp⟩ := Option.isSome_iff_exists.1 hsome
    obtain ⟨⟨es', ho'⟩, hsub, herase⟩ := ho.deleteOrdinal (hfound.symm.trans hp) hp
    obtain ⟨hobjects, hstack, hframes⟩ := removed_of_target fmt hheld.target hf hoffset
      hiterator
    have hrecord : removeRecorded fmt vm.objects f =
        (f, vm.objects.set l.ref (.hash (t.delete fmt vm.objects f.foreachKey).1)) := by
      rw [removeRecorded, harray, hhash]
      dsimp only
      rw [ht]
    rw [hrecord] at hobjects hframes
    have ht' : (removed fmt vm).objects.get? l.ref =
        some (.hash (t.delete fmt vm.objects f.foreachKey).1) := by
      rw [hobjects, Heap.get?_set ht, if_pos rfl]
    refine ⟨⟨hinv.progress.setIterator ?_ ?_, _, es', ht', ho', fun e he => hvalues e (hsub he)⟩, ?_⟩
    · rw [hstack, Int.add_sub_cancel]
    · rw [hframes, List.length_set]
    · rw [hashContent_eq ht, hashContent_eq ht', ← herase, HashObj.inOrder, HashObj.inOrder]
      -- the deletion leaves the texts of the keys alone
      rw [hobjects, HashObj.ordered_congr fun e _ => HashObj.keyRepr_setHash ht e.key]

end Hashes

/-! ### Loops over arrays and over hashes -/

section

variable (sizeof : ObjType → ℕ) (fmt : Printf) (valueOnly : Bool) (offset : ℕ) (l : LoopAt)

/-- The law of a loop over an array that starts now, if `remove()` is called as `held` says. -/
def ArrayLaw (held : VM → Prop) (vm : VM) : Prop :=
  ∀ a, Heap.ArrayAt vm.objects l.ref a → InProgress l vm 0 →
    RemovesChosen sizeof fmt valueOnly offset l (ArrayQuiet l) held
      (fun vm _ value => vm.objects.read value) (fun vm => vm.objects.shown l.ref) id vm

/-- The law of a loop over a hash that starts now, if `remove()` is called as `held` says. -/
def HashLaw (held : VM → Prop) (vm : VM) : Prop :=
  ∀ t log, HashObj.OrderRun fmt t log → vm.objects.get? l.ref = some (.hash t) →
    (∀ e ∈ t.liveEntries, e.value ≠ .null) → InProgress l vm 0 →
    RemovesChosen sizeof fmt valueOnly offset l (HashQuiet fmt l) held
      (fun _ key value => (key, value)) (hashContent fmt l.ref) (binding valueOnly) vm

end

section Law

variable (sizeof : ObjType → ℕ) (fmt : Printf) (valueOnly : Bool) (offset : ℕ) (l : LoopAt)
  (vm : VM)

/-- When `remove()` finds the record of the loop, the loop visits what its collection had, in
order and each once, and what was not removed is left. -/
theorem removesChosen_of_held :
    ArrayLaw sizeof fmt valueOnly offset l (ArrayHeld l) vm ∧
      HashLaw sizeof fmt valueOnly offset l (HashHeld fmt l) vm := by
  constructor
  · intro a ha hstart
    exact removesChosen_of_steps arraySteps ⟨hstart, a, ha, .inl rfl⟩
  · intro t log hrun ht hvalues hstart
    obtain ⟨es, ho, -⟩ := hrun.inOrder
    exact removesChosen_of_steps (hashSteps sizeof fmt valueOnly offset) ⟨hstart, t, es, ht, ho, hvalues⟩

end Law

/-- A machine at the start of `foreach $x (@a)` for an array with one element; there is another
array, which is empty. -/
def arrayLoopVM : VM where
  stack := [.obj 1, .num 0]
  frames := [{ closure := 0, slots := 0 }]
  objects := [⟨2, false, .array {}⟩, ⟨1, false, .array { elements := [.num 7], count := 1 }⟩]

theorem arrayAt_arrayLoopVM :
    Heap.ArrayAt arrayLoopVM.objects 1 { elements := [.num 7], count := 1 } where
  array := rfl
  sized := Nat.le_refl _
  known w hw := by
    rw [List.mem_singleton.1 hw]
    exact Heap.known_num _ _
  ordered := by
    have hroots : ∀ q s, ¬Heap.IsSource arrayLoopVM.objects q s := by
      rintro q s ⟨a, ha, hs⟩
      rw [arrayLoopVM, Heap.array?_cons, Heap.array?_cons] at ha
      split_ifs at ha
      · cases ha
        cases hs
      · cases ha
        cases hs
      · cases ha
    exact ⟨fun q s hs => absurd hs (hroots q s), fun q s hs => absurd hs (hroots q s)⟩

theorem inProgress_arrayLoopVM : InProgress ⟨0, 0, 1⟩ arrayLoopVM 0 := ⟨by decide, rfl, rfl⟩

theorem removesChosen_of_held_one :
    let fmt : Printf := ⟨fun _ => [], fun _ => []⟩
    let l : LoopAt := ⟨0, 0, 1⟩
    RemovesChosen (fun _ => 0) fmt false 0 l (ArrayQuiet l) (ArrayHeld l)
        (fun vm _ value => vm.objects.read value) (fun vm => vm.objects.shown 1) id arrayLoopVM ∧
      RemovesChosen (fun _ => 0) fmt false 0 l (HashQuiet fmt l) (HashHeld fmt l)
        (fun _ key value => (key, value)) (hashContent fmt 1) (binding false)
        (hashLoopVM (trueTable (.num 1))) := by
  intro fmt l
  refine ⟨(removesChosen_of_held (fun _ => 0) fmt false 0 l arrayLoopVM).1 _ arrayAt_arrayLoopVM
    inProgress_arrayLoopVM, ?_⟩
  refine (removesChosen_of_held (fun _ => 0) fmt false 0 l (hashLoopVM (trueTable (.num 1)))).2
    (trueTable (.num 1)) _ (orderRun_trueTable fmt (.num 1) (by decide)) rfl ?_ ⟨by decide, rfl, rfl⟩
  decide

/-- A printer that prints nothing. -/
def noText : Printf := ⟨fun _ => [], fun _ => []⟩

/-- The machine after the first round over `arrayLoopVM`. -/
def firstRound : VM := (foreachNext (fun _ => 0) noText false 0 arrayLoopVM).bound

/-- After the first round, the machine after a loop in the body over the empty array. -/
def innerLoop : VM :=
  (foreachNext (fun _ => 0) noText false 0
    ((firstRound.push (.obj 2)).push (.num 0))).vm.pop.2.pop.2

theorem atNext_of_idle {l : LoopAt} {vm : VM} (hframes : vm.frames.length = l.frame + 1)
    (hstack : vm.stack.length = l.slot + 2)
    (hidle : vm.frames[l.frame]?.map (·.foreachPending) = some false) : AtNext l vm := by
  refine ⟨hframes, hstack, fun f hf => ?_⟩
  rw [hf] at hidle
  exact Option.some.inj hidle

theorem foreachNext_arrayLoopVM : foreachNext (fun _ => 0) noText false 0 arrayLoopVM =
    .enter false (.num 0) (.obj 3) firstRound := rfl

theorem innerLoop_stack : innerLoop.stack = firstRound.stack := by decide

theorem innerLoop_objects : innerLoop.objects = firstRound.objects := by decide

theorem arrayQuiet_innerLoop : ArrayQuiet ⟨0, 0, 1⟩ firstRound innerLoop where
  frame := by decide
  collection := by rw [innerLoop_stack]
  iterator := by rw [innerLoop_stack]
  array a ha := ⟨a, by rwa [innerLoop_objects], rfl⟩
  shown := by rw [innerLoop_objects]
  noted a f f' _ hf' _ hno := by
    -- the end of the loop in the body leaves no array noted
    have hnone : innerLoop.frames[0]?.map (·.foreachIterationArray) = some none := by
      decide
    rw [hf', Option.map_some, hno] at hnone
    cases hnone

/-- The record is gone, so that `remove()` is refused. -/
theorem removed_innerLoop : removed noText innerLoop = innerLoop := by
  have hnone : innerLoop.removeTarget? = none := by decide
  rw [removed, nativeRemove, hnone]

/-- A loop in the body takes the record away, and the element is not removed. -/
theorem not_removesChosen_innerLoop :
    ¬∀ (sizeof : ObjType → ℕ) (fmt : Printf) (valueOnly : Bool) (offset : ℕ) (l : LoopAt) (vm : VM),
      ArrayLaw sizeof fmt valueOnly offset l (fun _ => True) vm ∧
        HashLaw sizeof fmt valueOnly offset l (fun _ => True) vm := by
  intro hall
  have hlaw := (hall (fun _ => 0) noText false 0 ⟨0, 0, 1⟩ arrayLoopVM).1 _ arrayAt_arrayLoopVM
    inProgress_arrayLoopVM
  have hseen : firstRound.objects.read (.obj 3) = .num 7 := by decide
  have hround : RemovingRun (fun _ => 0) noText false 0 ⟨0, 0, 1⟩ (ArrayQuiet ⟨0, 0, 1⟩)
      (fun _ => True) (fun vm _ value => vm.objects.read value) arrayLoopVM
      ([] ++ [(firstRound.objects.read (.obj 3), false)]) firstRound :=
    .round .start (atNext_of_idle rfl rfl rfl) foreachNext_arrayLoopVM
  have hrun := (hround.other arrayQuiet_innerLoop).remove trivial
  rw [removed_innerLoop, hseen] at hrun
  have hend : AtNext ⟨0, 0, 1⟩ innerLoop :=
    atNext_of_idle (by decide) (by decide) (by decide)
  -- the loop ends, and the element is still there
  have hleft := ((hlaw _ _ hrun).2 hend).2 (by decide)
  have hshown : (foreachNext (fun _ => 0) noText false 0 innerLoop).vm.objects.shown 1 =
      [.num 7] := by decide
  exact absurd (hshown.symm.trans hleft) (by decide)

end VM

end Slp
