import Slp.Iteration.Pass
import Slp.Vm.ForeachArray

/-!
# Removing from a loop

The body of a loop calls `remove()` in some of its rounds.  The record that `remove()` acts on is
one for all loops of a frame, so that it is not always the one of this loop (`ArrayHeld`,
`HashHeld`).  As long as it is, the loop is a pass over what the collection had at its start
(`removesChosen_of_steps`): it makes a round for each element, in order, and what is left after it
is what was not removed.
-/

namespace Slp

namespace VM

/-- Where a loop is: the index of its frame, the slot of its collection, with the iterator above
it, and the collection. -/
structure LoopAt where
  frame : ℕ
  slot : ℕ
  ref : Ref

/-- The loop is in progress, with the iterator `n`. -/
structure InProgress (l : LoopAt) (vm : VM) (n : ℤ) : Prop where
  frame : l.frame < vm.frames.length
  collection : vm.stack[l.slot]? = some (.obj l.ref)
  iterator : vm.stack[l.slot + 1]? = some (.num n)

/-- The loop makes the next step: its frame is the current one and has no generator pending, and
the iterator is on top. -/
structure AtNext (l : LoopAt) (vm : VM) : Prop where
  frames : vm.frames.length = l.frame + 1
  stack : vm.stack.length = l.slot + 2
  idle : ∀ f, vm.frames[l.frame]? = some f → f.foreachPending = false

/-- The machine after `remove()`; there is only a warning if it is refused. -/
def removed (fmt : Printf) (vm : VM) : VM :=
  match vm.nativeRemove fmt with
  | some (vm, _) => vm
  | none => vm

/-- The items that were not removed. -/
def keptOf {α : Type} (xs : List α) (flags : List Bool) : List α :=
  ((xs.zip flags).filter fun e => !e.2).map Prod.fst

section

variable (sizeof : ObjType → ℕ) (fmt : Printf) (valueOnly : Bool) (offset : ℕ) {α β : Type}

/-- The loop so far.  The log has what was seen in each round, and whether the body called
`remove()` then; between the steps of the loop and the removals there is other code. -/
inductive RemovingRun (l : LoopAt) (quiet : VM → VM → Prop) (held : VM → Prop)
    (seen : VM → Value → Value → β) (vm₀ : VM) : List (β × Bool) → VM → Prop where
  | start : RemovingRun l quiet held seen vm₀ [] vm₀
  | round {log : List (β × Bool)} {vm vm' : VM} {warned : Bool} {key value : Value}
      (hrun : RemovingRun l quiet held seen vm₀ log vm) (hnext : AtNext l vm)
      (hstep : foreachNext sizeof fmt valueOnly offset vm = .enter warned key value vm') :
      RemovingRun l quiet held seen vm₀ (log ++ [(seen vm' key value, false)]) vm'
  | other {log : List (β × Bool)} {vm vm' : VM}
      (hrun : RemovingRun l quiet held seen vm₀ log vm) (hquiet : quiet vm vm') :
      RemovingRun l quiet held seen vm₀ log vm'
  | remove {log : List (β × Bool)} {vm : VM} {b : β}
      (hrun : RemovingRun l quiet held seen vm₀ (log ++ [(b, false)]) vm) (hheld : held vm) :
      RemovingRun l quiet held seen vm₀ (log ++ [(b, true)]) (removed fmt vm)

/-- The loop has a round for each item of the collection, in order, and then ends, and the items
that were not removed are left. -/
def RemovesChosen (l : LoopAt) (quiet : VM → VM → Prop) (held : VM → Prop)
    (seen : VM → Value → Value → β) (content : VM → List α) (bind : α → β) (vm₀ : VM) : Prop :=
  ∀ log vm, RemovingRun sizeof fmt valueOnly offset l quiet held seen vm₀ log vm →
    log.map Prod.fst <+: (content vm₀).map bind ∧
    (AtNext l vm →
      ((foreachNext sizeof fmt valueOnly offset vm).exits ↔ log.length = (content vm₀).length) ∧
      ((foreachNext sizeof fmt valueOnly offset vm).exits →
        content (foreachNext sizeof fmt valueOnly offset vm).vm =
          keptOf (content vm₀) (log.map Prod.snd)))

/-- What the steps of a loop do that makes it a pass: `inv` holds of the machine and the iterator. -/
structure PassSteps (l : LoopAt) (quiet : VM → VM → Prop) (held : VM → Prop)
    (seen : VM → Value → Value → β) (content : VM → List α) (bind : α → β)
    (inv : VM → ℕ → Prop) : Prop where
  round : ∀ vm n x, inv vm n → AtNext l vm → (content vm)[n]? = some x →
    ∃ warned key value vm', foreachNext sizeof fmt valueOnly offset vm =
        .enter warned key value vm' ∧
      inv vm' (n + 1) ∧ content vm' = content vm ∧ seen vm' key value = bind x
  exit : ∀ vm n, inv vm n → AtNext l vm → (content vm)[n]? = none →
    (foreachNext sizeof fmt valueOnly offset vm).exits = true ∧
      content (foreachNext sizeof fmt valueOnly offset vm).vm = content vm
  other : ∀ vm vm' n, inv vm n → quiet vm vm' → inv vm' n ∧ content vm' = content vm
  remove : ∀ vm n, inv vm (n + 1) → n < (content vm).length → held vm →
    inv (removed fmt vm) n ∧ content (removed fmt vm) = (content vm).eraseIdx n

end

section Law

variable {sizeof : ObjType → ℕ} {fmt : Printf} {valueOnly : Bool} {offset : ℕ} {α β : Type}
  {l : LoopAt} {quiet : VM → VM → Prop} {held : VM → Prop} {seen : VM → Value → Value → β}
  {content : VM → List α} {bind : α → β} {inv : VM → ℕ → Prop} {vm₀ vm : VM}
  {log : List (β × Bool)}

/-- The log of a pass, as the loop sees it. -/
def seenLog (bind : α → β) (log : List (α × Bool)) : List (β × Bool) :=
  log.map fun e => (bind e.1, e.2)

theorem seenLog_append (log : List (α × Bool)) (x : α) (flag : Bool) :
    seenLog bind (log ++ [(x, flag)]) = seenLog bind log ++ [(bind x, flag)] := by
  simp [seenLog]

theorem seenLog_concat {b : β} {flag : Bool} {log' : List (α × Bool)}
    (heq : seenLog bind log' = log ++ [(b, flag)]) :
    ∃ log₀ x, log' = log₀ ++ [(x, flag)] ∧ log = seenLog bind log₀ ∧ b = bind x := by
  obtain ⟨log₀, rest, rfl, rfl, hrest⟩ := List.map_eq_append_iff.1 heq
  obtain ⟨⟨x, flag'⟩, rfl, hx⟩ := List.map_eq_singleton_iff.1 hrest
  cases hx
  exact ⟨log₀, x, rfl, rfl, rfl⟩

/-- A run of the loop is a pass over what its collection had at the start. -/
theorem RemovingRun.pass
    (hsteps : PassSteps sizeof fmt valueOnly offset l quiet held seen content bind inv)
    (hstart : inv vm₀ 0)
    (hrun : RemovingRun sizeof fmt valueOnly offset l quiet held seen vm₀ log vm) :
    ∃ log' c, log = seenLog bind log' ∧ Pass.Run (content vm₀) log' c ∧
      content vm = c.items ∧ inv vm c.pos := by
  induction hrun with
  | start => exact ⟨[], ⟨content vm₀, 0⟩, rfl, .start, rfl, hstart⟩
  | @round log vm vm' warned key value _ hnext hstep ih =>
    obtain ⟨log', c, rfl, hpass, hcontent, hinv⟩ := ih
    cases hx : c.items[c.pos]? with
    | none =>
      -- at the end there is no round
      obtain ⟨hexit, -⟩ := hsteps.exit vm c.pos hinv hnext (hcontent ▸ hx)
      rw [hstep] at hexit
      cases hexit
    | some x =>
      obtain ⟨warned', key', value', vm'', hstep', hinv', hsame, hseen⟩ :=
        hsteps.round vm c.pos x hinv hnext (hcontent ▸ hx)
      rw [hstep] at hstep'
      cases hstep'
      refine ⟨log' ++ [(x, false)], c.next, ?_, hpass.next hx, hsame.trans hcontent, hinv'⟩
      rw [seenLog_append, hseen]
  | @other log vm vm' _ hquiet ih =>
    obtain ⟨log', c, rfl, hpass, hcontent, hinv⟩ := ih
    obtain ⟨hinv', hsame⟩ := hsteps.other vm vm' c.pos hinv hquiet
    exact ⟨log', c, rfl, hpass, hsame.trans hcontent, hinv'⟩
  | @remove log vm b _ hheld ih =>
    obtain ⟨log', c, heq, hpass, hcontent, hinv⟩ := ih
    obtain ⟨log₀, x, rfl, rfl, rfl⟩ := seenLog_concat heq.symm
    -- the item passed last is the one before the iterator
    obtain ⟨hpos, rest, hitems, -⟩ := hpass.spec
    obtain ⟨n, hn⟩ : ∃ n, c.pos = n + 1 := by
      rw [Pass.kept_append, Pass.kept_false, List.length_append] at hpos
      exact ⟨_, hpos⟩
    have hlt : n < (content vm).length := by
      rw [hcontent, hitems, List.length_append]
      omega
    rw [hn] at hinv
    obtain ⟨hinv', herase⟩ := hsteps.remove vm n hinv hlt hheld
    refine ⟨log₀ ++ [(x, true)], c.remove, (seenLog_append _ _ _).symm, hpass.remove, ?_, ?_⟩
    · rw [herase, hcontent, Pass.remove, hn]
      rfl
    · rw [Pass.remove, hn]
      exact hinv'

theorem kept_eq_keptOf {log' : List (α × Bool)} :
    Pass.kept log' = keptOf (log'.map Prod.fst) (log'.map Prod.snd) := by
  rw [Pass.kept, keptOf, List.zip_map_right, List.zip_map_left]
  congr 2
  induction log' with
  | nil => rfl
  | cons e log' ih => simpa using ih

theorem removesChosen_of_steps
    (hsteps : PassSteps sizeof fmt valueOnly offset l quiet held seen content bind inv)
    (hstart : inv vm₀ 0) :
    RemovesChosen sizeof fmt valueOnly offset l quiet held seen content bind vm₀ := by
  intro log vm hrun
  obtain ⟨log', c, rfl, hpass, hcontent, hinv⟩ := hrun.pass hsteps hstart
  have hfst : (seenLog bind log').map Prod.fst = (log'.map Prod.fst).map bind := by
    simp [seenLog]
  have hsnd : (seenLog bind log').map Prod.snd = log'.map Prod.snd := by
    simp [seenLog]
  have hlength : (seenLog bind log').length = (log'.map Prod.fst).length := by
    simp [seenLog]
  refine ⟨by rw [hfst]; exact hpass.passed.map bind, fun hnext => ?_⟩
  cases hx : c.items[c.pos]? with
  | none =>
    obtain ⟨hexit, hsame⟩ := hsteps.exit vm c.pos hinv hnext (hcontent ▸ hx)
    obtain ⟨hall, hitems⟩ := hpass.rest hx
    refine ⟨iff_of_true hexit (by rw [hlength, hall]), fun _ => ?_⟩
    rw [hsame, hcontent, hitems, hsnd, kept_eq_keptOf, hall]
  | some x =>
    obtain ⟨warned, key, value, vm', hstep, -⟩ :=
      hsteps.round vm c.pos x hinv hnext (hcontent ▸ hx)
    have hexit : (foreachNext sizeof fmt valueOnly offset vm).exits = false := by
      rw [hstep]
      rfl
    have hlt : (seenLog bind log').length ≠ (content vm₀).length := by
      rw [hlength]
      intro heq
      exact hpass.ne_of_getElem? hx (hpass.passed.eq_of_length heq)
    exact ⟨iff_of_false (by simp [hexit]) hlt, by simp [hexit]⟩

end Law

/-! ### Stack and frames -/

section Places

variable {l : LoopAt} {vm : VM} {n : ℤ} {f : CallFrame}

theorem InProgress.atHead (hp : InProgress l vm n) (hn : AtNext l vm) : AtHead vm l.ref n where
  stack := by
    refine ⟨vm.stack.take l.slot, ?_⟩
    obtain ⟨x, y, hdrop⟩ := List.length_eq_two.1
      (show (vm.stack.drop l.slot).length = 2 by rw [List.length_drop, hn.stack]; omega)
    have hx := hp.collection
    have hy := hp.iterator
    rw [← List.take_append_drop l.slot vm.stack, hdrop, List.getElem?_append_right (by simp)] at hx hy
    simp [hn.stack] at hx hy
    conv_lhs => rw [← List.take_append_drop l.slot vm.stack, hdrop, hx, hy]
  idle := by
    have hlast : vm.currentFrame? = vm.frames[l.frame]? := by
      rw [currentFrame?, List.getLast?_eq_getElem?, hn.frames, Nat.add_sub_cancel]
    obtain ⟨f, hf⟩ : ∃ f, vm.frames[l.frame]? = some f :=
      ⟨_, List.getElem?_eq_getElem hp.frame⟩
    exact ⟨f, hlast.trans hf, hn.idle f hf⟩

theorem AtNext.currentFrame? (hn : AtNext l vm) : vm.currentFrame? = vm.frames[l.frame]? := by
  rw [VM.currentFrame?, List.getLast?_eq_getElem?, hn.frames, Nat.add_sub_cancel]

/-- The loop goes on with another iterator. -/
theorem InProgress.setIterator (hp : InProgress l vm n) {vm' : VM} {m : ℤ}
    (hstack : vm'.stack = vm.stack.set (l.slot + 1) (.num m))
    (hframes : vm'.frames.length = vm.frames.length) : InProgress l vm' m where
  frame := by
    rw [hframes]
    exact hp.frame
  collection := by
    rw [hstack, List.getElem?_set_ne (Nat.succ_ne_self _)]
    exact hp.collection
  iterator := by
    rw [hstack, List.getElem?_set_self (List.getElem?_eq_some_iff.1 hp.iterator).1]

/-- `remove()` on the record of the frame `i`. -/
theorem removed_of_target (fmt : Printf) {i : ℕ} (htarget : vm.removeTarget? = some i)
    (hf : vm.frames[i]? = some f) {slot : ℕ} (hoffset : f.foreachIteratorOffset = slot)
    (hn : vm.stack[slot]? = some (.num n)) :
    (removed fmt vm).objects = (removeRecorded fmt vm.objects f).2 ∧
      (removed fmt vm).stack = vm.stack.set slot (.num (n - 1)) ∧
      (removed fmt vm).frames = vm.frames.set i { (removeRecorded fmt vm.objects f).1 with
        foreachArray := none, foreachHash := none, foreachActive := false } := by
  have hin : 0 ≤ (slot : ℤ) ∧ (slot : ℤ) < vm.top := by
    have hlt := (List.getElem?_eq_some_iff.1 hn).1
    unfold top
    omega
  have hslot : (vm.slot (slot : ℤ)).asNum = n := by
    rw [VM.slot, Int.toNat_natCast, List.getD_eq_getElem?_getD, hn]
    rfl
  unfold removed nativeRemove
  rw [htarget]
  dsimp only
  rw [hf]
  dsimp only
  rw [hoffset, rewind, if_pos (by exact hin)]
  refine ⟨rfl, ?_, rfl⟩
  show vm.stack.set (slot : ℤ).toNat (.num ((vm.slot slot).asNum - 1)) = _
  rw [hslot, Int.toNat_natCast]

end Places

/-! ### Arrays -/

/-- Code that leaves the loop and its array alone, and does not note another version for it. -/
structure ArrayQuiet (l : LoopAt) (vm vm' : VM) : Prop where
  frame : l.frame < vm'.frames.length
  collection : vm'.stack[l.slot]? = vm.stack[l.slot]?
  iterator : vm'.stack[l.slot + 1]? = vm.stack[l.slot + 1]?
  array : ∀ a, Heap.ArrayAt vm.objects l.ref a → ∃ a', Heap.ArrayAt vm'.objects l.ref a' ∧
    a'.mutationVersion = a.mutationVersion
  shown : vm'.objects.shown l.ref = vm.objects.shown l.ref
  noted : ∀ a f f', vm.frames[l.frame]? = some f → vm'.frames[l.frame]? = some f' →
    Noted f l.ref a → Noted f' l.ref a

/-- `remove()` finds the record of the last round of this loop. -/
structure ArrayHeld (l : LoopAt) (vm : VM) : Prop where
  target : vm.removeTarget? = some l.frame
  record : ∀ f, vm.frames[l.frame]? = some f → f.foreachArray = some l.ref ∧
    f.foreachIteratorOffset = (l.slot + 1 : ℕ) ∧
    vm.stack[l.slot + 1]? = some (.num (f.foreachIndex + 1))

/-- The state of a loop over an array: the version that was noted is up to date, except before the
first round. -/
structure ArrayInv (l : LoopAt) (vm : VM) (n : ℕ) : Prop where
  progress : InProgress l vm n
  array : ∃ a, Heap.ArrayAt vm.objects l.ref a ∧
    (n = 0 ∨ ∀ f, vm.frames[l.frame]? = some f → Noted f l.ref a)

section Arrays

variable {sizeof : ObjType → ℕ} {fmt : Printf} {valueOnly : Bool} {offset : ℕ} {l : LoopAt}
  {vm vm' : VM} {n : ℕ} {a : ArrayObj} {x value : Value}

/-- After a round the loop is at the next element. -/
theorem ArrayInv.round (hi : ArrayInv l vm n) (hn : AtNext l vm)
    (ha : Heap.ArrayAt vm.objects l.ref a)
    (hround : ArrayRound vm vm' l.ref a n value) (hnoted : n = 0 ∨
      ∀ f, vm.frames[l.frame]? = some f → Noted f l.ref a) : ArrayInv l vm' (n + 1) where
  progress := by
    refine hi.progress.setIterator ?_ ?_
    · rw [hround.stack, hn.stack]
      rfl
    · rw [hround.frames, List.length_modify]
  array := by
    obtain ⟨es, hes⟩ := hround.arrays l.ref a ha
    refine ⟨_, hes, .inr fun f hf => ?_⟩
    rw [hround.frames, hn.frames, Nat.add_sub_cancel, List.getElem?_modify_eq] at hf
    obtain ⟨f₀, hf₀, rfl⟩ := Option.map_eq_some_iff.1 hf
    -- the round noted the version, or it was noted already
    obtain ⟨-, hversion, hvalid⟩ := noteArray_of_noted (a := a) (r := l.ref) (f := foreachReset f₀)
      (n := n) (hnoted.imp (by simp) fun hall => hall f₀ hf₀)
    exact fun _ => ⟨hversion, hvalid⟩

theorem arraySteps : PassSteps sizeof fmt valueOnly offset l (ArrayQuiet l) (ArrayHeld l)
    (fun vm _ value => vm.objects.read value) (fun vm => vm.objects.shown l.ref) id
    (ArrayInv l) where
  round vm n x hinv hn hx := by
    obtain ⟨a, ha, hnoted⟩ := hinv.array
    have hlt : n < a.count := by
      rw [← ha.length_shown]
      exact (List.getElem?_eq_some_iff.1 hx).1
    obtain ⟨value, vm', hstep, hround⟩ := arrayNext_enter sizeof fmt valueOnly offset
      (hinv.progress.atHead hn) ha hlt
      (by rwa [hn.currentFrame?])
    refine ⟨_, _, _, vm', hstep, hinv.round hn ha hround hnoted, hround.shown, ?_⟩
    exact Option.some.inj (hround.value.symm.trans hx)
  exit vm n hinv hn hx := by
    obtain ⟨a, ha, hnoted⟩ := hinv.array
    have hle : a.count ≤ n := by
      rw [← ha.length_shown]
      exact List.getElem?_eq_none_iff.1 hx
    obtain ⟨hexit, hobjects⟩ := arrayNext_exit sizeof fmt valueOnly offset
      (hinv.progress.atHead hn) ha hle
      (by rwa [hn.currentFrame?])
    exact ⟨hexit, by rw [hobjects]⟩
  other vm vm' n hinv hquiet := by
    obtain ⟨a, ha, hnoted⟩ := hinv.array
    obtain ⟨a', ha', hversion⟩ := hquiet.array a ha
    refine ⟨⟨⟨hquiet.frame, hquiet.collection.trans hinv.progress.collection,
      hquiet.iterator.trans hinv.progress.iterator⟩, a', ha', hnoted.imp id fun hall f' hf' => ?_⟩,
      hquiet.shown⟩
    have hf := List.getElem?_eq_getElem hinv.progress.frame
    have hnote := hquiet.noted a _ f' hf hf' (hall _ hf)
    intro hsame
    rw [hversion]
    exact hnote hsame
  remove vm n hinv hlt hheld := by
    obtain ⟨a, ha, hnoted⟩ := hinv.array
    obtain ⟨f, hf⟩ : ∃ f, vm.frames[l.frame]? = some f :=
      ⟨_, List.getElem?_eq_getElem hinv.progress.frame⟩
    obtain ⟨harray, hoffset, hiterator⟩ := hheld.record f hf
    have hindex : f.foreachIndex = n := by
      rw [hinv.progress.iterator] at hiterator
      have heq := Value.num.inj (Option.some.inj hiterator)
      push_cast at heq
      omega
    obtain ⟨hobjects, hstack, hframes⟩ := removed_of_target fmt hheld.target hf hoffset
      hinv.progress.iterator
    have hrecord : removeRecorded fmt vm.objects f =
        ({ f with foreachIterationVersion := (((vm.objects.change l.ref (.removeAt n)).array?
            l.ref).map (·.mutationVersion)).getD 0 }, vm.objects.change l.ref (.removeAt n)) := by
      rw [removeRecorded, harray, hindex]
    rw [hrecord] at hobjects hframes
    rw [ha.length_shown] at hlt
    obtain ⟨⟨b, hb⟩, hshown⟩ := ha.removeAt hlt
    refine ⟨⟨hinv.progress.setIterator ?_ ?_, b, by rwa [hobjects], ?_⟩, ?_⟩
    · rw [hstack]
      push_cast
      rw [Int.add_sub_cancel]
    · rw [hframes, List.length_set]
    · -- the removal notes its own version
      refine .inr fun g hg => ?_
      rw [hframes, List.getElem?_set_self hinv.progress.frame] at hg
      obtain rfl := Option.some.inj hg
      intro hsame
      refine ⟨by simp [hb.array], ?_⟩
      exact (hnoted.resolve_left (Nat.succ_ne_zero n) f hf hsame).2
    · rw [hobjects, hshown]

end Arrays

end VM

end Slp
