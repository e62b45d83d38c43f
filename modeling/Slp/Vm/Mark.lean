import Mathlib.Data.List.Infix
import Slp.Vm.Nested

/-!
# What a nested run leaves below its mark

A run that starts in the machine `e` works above its frames and its handlers as long as no event
reaches below them (`Apart`).
-/

namespace Slp

namespace Nested

/-! ### Above a mark -/

/-- The frames and the handlers of the machine `e` are still there, below those of `vm`. -/
structure Above (e vm : VM) : Prop where
  frames : e.frames <+: vm.frames
  handlers : e.tryHandlers <+: vm.tryHandlers

section Above

variable {sizeof : ObjType → ℕ} {fmt : Printf} {e vm vm' : VM}

theorem Above.refl (vm : VM) : Above vm vm := ⟨List.prefix_rfl, List.prefix_rfl⟩

theorem Above.trans {vm'' : VM} (h : Above vm vm') (h' : Above vm' vm'') : Above vm vm'' :=
  ⟨h.frames.trans h'.frames, h.handlers.trans h'.handlers⟩

/-- The frames and the handlers are the same. -/
theorem Above.of_eq (hf : vm'.frames = vm.frames) (hh : vm'.tryHandlers = vm.tryHandlers) :
    Above vm vm' := ⟨by rw [hf], by rw [hh]⟩

theorem take_isPrefix {α : Type*} {l l' : List α} {i : ℕ} (h : l <+: l') (hi : l.length ≤ i) :
    l <+: l'.take i := by
  obtain ⟨r, rfl⟩ := h
  rw [List.take_append, List.take_of_length_le hi]
  exact List.prefix_append _ _

theorem set_isPrefix {α : Type*} {l l' : List α} {i : ℕ} (h : l <+: l') (hi : l.length ≤ i) (a : α) :
    l <+: l'.set i a := by
  obtain ⟨r, rfl⟩ := h
  rw [List.set_append_right _ _ hi]
  exact List.prefix_append _ _

theorem modify_isPrefix {α : Type*} {l l' : List α} {i : ℕ} (h : l <+: l') (hi : l.length ≤ i)
    (f : α → α) : l <+: l'.modify i f := by
  obtain ⟨r, rfl⟩ := h
  obtain ⟨d, rfl⟩ := Nat.exists_eq_add_of_le hi
  rw [VM.modify_append_right]
  exact List.prefix_append _ _

/-! ### Calls -/

theorem Above.push (h : Above e vm) (v : Value) : Above e (vm.push v) :=
  h.trans (.of_eq (VM.push_frames vm v) (VM.push_tryHandlers vm v))

theorem Above.setTop (h : Above e vm) (t : ℤ) : Above e (vm.setTop t) := ⟨h.frames, h.handlers⟩

/-- The frames and the handlers are the same. -/
structure SameMarks (vm vm' : VM) : Prop where
  frames : vm'.frames = vm.frames
  handlers : vm'.tryHandlers = vm.tryHandlers

theorem SameMarks.refl (vm : VM) : SameMarks vm vm := ⟨rfl, rfl⟩

theorem SameMarks.trans {vm'' : VM} (h : SameMarks vm vm') (h' : SameMarks vm' vm'') :
    SameMarks vm vm'' := ⟨h'.frames.trans h.frames, h'.handlers.trans h.handlers⟩

theorem SameMarks.above (h : SameMarks vm vm') : Above vm vm' := .of_eq h.frames h.handlers

theorem push_same (vm : VM) (v : Value) : SameMarks vm (vm.push v) :=
  ⟨VM.push_frames vm v, VM.push_tryHandlers vm v⟩

theorem foldl_push_same (vm : VM) (vs : List Value) : SameMarks vm (vs.foldl VM.push vm) := by
  induction vs generalizing vm with
  | nil => exact .refl vm
  | cons v vs ih => exact (push_same vm v).trans (ih _)

theorem alloc_same (sizeof : ObjType → ℕ) (vm : VM) (o : Obj) :
    SameMarks vm (vm.alloc sizeof o).1 := ⟨rfl, rfl⟩

theorem storeNamed_same (fmt : Printf) (scope : Option Ref) (vm : VM) (named : List Value) :
    SameMarks vm (VM.storeNamed fmt scope vm named).vm := by
  obtain ⟨h', -, hok, herr⟩ := VM.storeNamed_spec fmt scope vm named
  by_cases hnames : vm.NamesAreStrings named
  · rw [hok hnames]
    exact ⟨rfl, rfl⟩
  · rw [herr hnames]
    exact ⟨rfl, rfl⟩

theorem ensureClosureScope_same (sizeof : ObjType → ℕ) (fmt : Printf) (vm : VM) (r : Ref)
    (c : ClosureObj) : SameMarks vm (vm.ensureClosureScope sizeof fmt r c).1 := by
  unfold VM.ensureClosureScope
  split
  · exact .refl vm
  · dsimp only
    split
    · next vm' name hin =>
      rcases Gc.internString_cases hin with rfl | ⟨_, _, rfl⟩ <;> exact ⟨rfl, rfl⟩
    · exact ⟨rfl, rfl⟩

theorem activationScopes_same (sizeof : ObjType → ℕ) (fmt : Printf) (vm : VM) (r : Ref)
    (c : ClosureObj) : SameMarks vm (vm.activationScopes sizeof fmt r c).1 := by
  unfold VM.activationScopes
  split
  · exact .refl vm
  · refine SameMarks.trans ?_ (ensureClosureScope_same sizeof fmt _ r c)
    exact ⟨rfl, rfl⟩

/-- A call that leaves what there is, and on success makes `d` frames. -/
structure Makes (vm : VM) (d : ℕ) (o : Outcome) : Prop where
  above : Above vm o.vm
  length : ∀ vm', o = .ok vm' → vm'.frames.length = vm.frames.length + d

theorem Makes.of_error {vm : VM} {d : ℕ} {message : String} (h : Above vm vm') :
    Makes vm d (.error message vm') := ⟨h, by rintro _ ⟨⟩⟩

theorem makes_frame {f : CallFrame} {o : Outcome} (h : SameMarks vm vm')
    (ho : SameMarks { vm' with frames := vm'.frames ++ [f] } o.vm) : Makes vm 1 o := by
  refine ⟨h.above.trans ⟨?_, ?_⟩, ?_⟩
  · rw [ho.frames]
    exact List.prefix_append _ _
  · rw [ho.handlers]
  · rintro vm₁ rfl
    rw [← h.frames]
    exact (congrArg List.length ho.frames).trans List.length_append

theorem enterClosure_makes (sizeof : ObjType → ℕ) (fmt : Printf) (vm : VM) (r : Ref)
    (c : ClosureObj) (slots : ℤ) (message : Value) (positional named : List Value)
    (trace : Option CallTrace) :
    Makes vm 1 (vm.enterClosure sizeof fmt r c slots message positional named trace) := by
  unfold VM.enterClosure
  split_ifs
  · exact .of_error (.refl vm)
  · dsimp only
    have halloc := alloc_same sizeof vm
      (.array ((positional.map vm.objects.dereferenceValue).foldl ArrayObj.push {}))
    generalize vm.alloc sizeof _ = p at halloc ⊢
    obtain ⟨vm₁, args⟩ := p
    have hscopes := halloc.trans (activationScopes_same sizeof fmt vm₁ r c)
    dsimp only
    generalize vm₁.activationScopes sizeof fmt r c = p at hscopes
    obtain ⟨vm₂, localScopes, closureScope⟩ := p
    -- the frame is made above those there are
    refine makes_frame ?_ (storeNamed_same _ _ _ _)
    refine SameMarks.trans ?_ (push_same _ _)
    refine SameMarks.trans ?_ (foldl_push_same _ _)
    refine SameMarks.trans ?_ (push_same _ _)
    exact ⟨hscopes.frames, hscopes.handlers⟩

theorem resumeClosure_makes (sizeof : ObjType → ℕ) (fmt : Printf) (vm : VM) (r : Ref) (k : Coroutine)
    (slots : ℤ) (hasMessage : Bool) (message : Value) (positional named : List Value)
    (trace : Option CallTrace) : Makes vm k.frames.length
      (vm.resumeClosure sizeof fmt r k slots hasMessage message positional named trace) := by
  rw [VM.resumeClosure_eq]
  extract_lets plain args vm₁ vm₂ vm₃ vm₄ scope
  have hvm₁ : Above vm (vm₁.setTop slots) := (alloc_same sizeof vm _).above.setTop slots
  have hframes : vm₂.frames = vm.frames ++ k.frames.map (VM.restoreFrame slots) := by
    simp [vm₂, vm₁, args, VM.alloc]
  have hlen : vm₄.frames.length = vm.frames.length + k.frames.length := by
    change (vm₂.frames.modify _ _).length = _
    rw [List.length_modify, hframes, List.length_append, List.length_map]
  have hvm₄ : Above vm vm₄ := by
    refine ⟨?_, ?_⟩
    · exact modify_isPrefix (hframes ▸ List.prefix_append _ _) (Nat.le_refl _) _
    · simp [vm₄, vm₃, vm₂, vm₁, args, VM.alloc]
  have hnamed := storeNamed_same fmt scope vm₄ named
  split
  · exact .of_error hvm₁
  split
  · exact .of_error hvm₁
  split
  · exact .of_error hvm₁
  split
  · next heq =>
    rw [heq] at hnamed
    exact .of_error (hvm₄.trans hnamed.above)
  · next vm₅ heq =>
    rw [heq] at hnamed
    have hlen₅ : vm₅.frames.length = vm.frames.length + k.frames.length := by
      rw [← hlen]
      exact congrArg List.length hnamed.frames
    have hvm₅ : Above vm vm₅ := hvm₄.trans hnamed.above
    refine ⟨?_, ?_⟩
    · change Above vm (if _ then _ else _)
      split
      · exact hvm₅.push _
      · exact hvm₅
    · rintro _ ⟨⟩
      split
      · rw [VM.push_frames, hlen₅]
      · exact hlen₅

/-- The number of frames that a call of the closure makes. -/
def framesMade (c : ClosureObj) : ℕ := c.coroutine.elim 1 (·.frames.length)

/-- A call of a closure makes its frames above those there are. -/
theorem callClosure_makes (sizeof : ObjType → ℕ) (fmt : Printf) (vm : VM) (r : Ref)
    (c : ClosureObj) (argCount : ℕ) (hasMessage : Bool) (trace : Option CallTrace) :
    Makes vm (if vm.hasUnreachableName (vm.namedArguments (vm.callArguments argCount hasMessage))
      then 0 else framesMade c)
      (vm.callClosure sizeof fmt r c argCount hasMessage trace) := by
  unfold VM.callClosure
  by_cases hfull : vm.frames.length ≥ maxFrames
  · rw [if_pos hfull]
    exact .of_error (.refl vm)
  · rw [if_neg hfull]
    dsimp only
    split
    · refine ⟨((Above.refl vm).setTop _).push _, ?_⟩
      rintro _ ⟨⟩
      rw [VM.push_frames]
      rfl
    split
    · next k hk =>
      rw [framesMade, hk]
      exact resumeClosure_makes ..
    · next hk =>
      rw [framesMade, hk]
      exact enterClosure_makes ..

theorem callClosure_above (sizeof : ObjType → ℕ) (fmt : Printf) (vm : VM) (r : Ref)
    (c : ClosureObj) (argCount : ℕ) (hasMessage : Bool) (trace : Option CallTrace) :
    Above vm (vm.callClosure sizeof fmt r c argCount hasMessage trace).vm :=
  (callClosure_makes ..).above

/-! ### The operations of the opcodes -/

theorem Above.pop (h : Above e vm) : Above e vm.pop.2 :=
  h.trans (.of_eq (VM.pop_frames vm) (VM.pop_tryHandlers vm))

theorem Above.onlyHeap (h : Above e vm) (ho : VM.OnlyHeap vm vm') : Above e vm' :=
  h.trans (.of_eq ho.frames ho.tryHandlers)

theorem Above.take (h : Above e vm) {i : ℕ} (hi : e.frames.length ≤ i) :
    Above e { vm with frames := vm.frames.take i } :=
  ⟨take_isPrefix h.frames hi, h.handlers⟩

theorem Above.modifyFrame (h : Above e vm) (hn : e.frames.length < vm.frames.length)
    (f : CallFrame → CallFrame) : Above e (vm.modifyFrame f) :=
  ⟨modify_isPrefix h.frames (by omega) f, h.handlers⟩

theorem Above.length_frames (h : Above e vm) : e.frames.length ≤ vm.frames.length :=
  h.frames.length_le

theorem Above.length_handlers (h : Above e vm) : e.tryHandlers.length ≤ vm.tryHandlers.length :=
  h.handlers.length_le

/-- Trimming stops at a handler that is not above the count. -/
theorem suffix_dropAbove {c : ℤ} (hs hs' : List TryHandler) (hc : ∀ h ∈ hs', h.frameCount ≤ c) :
    hs' <:+ VM.dropAbove c (hs ++ hs') := by
  induction hs with
  | nil =>
    cases hs' with
    | nil => exact List.suffix_rfl
    | cons h hs' =>
      have hh : ¬ h.frameCount > c := not_lt.2 (hc h List.mem_cons_self)
      rw [List.nil_append, VM.dropAbove, if_neg hh]
  | cons h hs ih =>
    rw [List.cons_append, VM.dropAbove]
    split
    · exact ih
    · exact List.suffix_append (h :: hs) hs'

theorem Above.trim (h : Above e vm) {c : ℤ} (hc : ∀ h ∈ e.tryHandlers, h.frameCount ≤ c) :
    Above e (vm.trimTryHandlers c) := by
  refine ⟨h.frames, ?_⟩
  obtain ⟨hs, heq⟩ := h.handlers
  have hsuffix := suffix_dropAbove hs.reverse e.tryHandlers.reverse fun h hh =>
    hc h (List.mem_reverse.1 hh)
  rw [← List.reverse_append, heq, ← List.reverse_prefix, List.reverse_reverse] at hsuffix
  exact hsuffix

/-- The handlers of a machine belong to frames that are there. -/
def OwnHandlers (e : VM) : Prop := ∀ h ∈ e.tryHandlers, h.frameCount ≤ e.frames.length

/-- The continuation keeps the frames and the handlers of `e`, and is resumed above them. -/
structure Kept (e : VM) (k : ContinuationObj) : Prop where
  frames : e.frames <+: k.frames
  handlers : e.tryHandlers <+: k.tryHandlers
  resumed : 0 ≤ k.resumeFrameIndex → e.frames.length ≤ k.resumeFrameIndex

theorem Above.cut (h : Above e vm) (hown : OwnHandlers e) {i : ℕ} (hi : e.frames.length ≤ i) :
    Above e ({ vm with frames := vm.frames.take i }.trimTryHandlers i) :=
  (h.take hi).trim fun h hh => (hown h hh).trans (Int.ofNat_le.2 hi)

theorem Above.dropFrame (h : Above e vm) (hown : OwnHandlers e)
    (hn : e.frames.length < vm.frames.length) :
    Above e ({ vm with frames := vm.frames.dropLast }.trimTryHandlers vm.frames.dropLast.length) := by
  rw [List.dropLast_eq_take, List.length_take, Nat.min_eq_left (Nat.sub_le _ _)]
  exact h.cut hown (by omega)

theorem Above.opReturn (h : Above e vm) (hown : OwnHandlers e)
    (hn : e.frames.length < vm.frames.length)
    (hvm : WellFormed vm)
    (hkept : ∀ k, vm.returnsTo? = some k → Kept e k) : Above e (vm.opReturn sizeof) := by
  unfold VM.opReturn
  have hpop := h.pop
  have hobj := VM.pop_objects vm
  have hframes := VM.pop_frames vm
  generalize vm.pop = p at hpop hobj hframes ⊢
  obtain ⟨result, vm₁⟩ := p
  dsimp only at hpop hobj hframes ⊢
  split
  · exact hpop
  · next f hf =>
    have hheap := VM.OnlyHeap.returnedValue sizeof vm₁ f result
    generalize vm₁.returnedValue sizeof f result = p at hheap ⊢
    obtain ⟨vm₂, result'⟩ := p
    have hheap := hheap.trans (VM.OnlyHeap.dropLeakedScopes vm₂ f)
    dsimp only
    generalize vm₂.dropLeakedScopes f = vm₃ at hheap
    have hcut := (hpop.onlyHeap hheap).dropFrame hown (by rw [hheap.frames, hframes]; exact hn)
    split
    · next r hr =>
      split
      · next k hk =>
        have hf' : vm.currentFrame? = some f := by rw [VM.currentFrame?, ← hframes]; exact hf
        -- the continuation there is the one linked before
        obtain ⟨k', hget⟩ := hvm.links f (List.mem_of_getLast? hf') r hr
        have hk' : vm.returnsTo? = some k' := by simp [VM.returnsTo?, hf', hr, hget]
        have hsame := hheap.continuation r k' (hobj ▸ hget)
        have heq : k' = k := by
          have := hsame.symm.trans hk
          cases this
          rfl
        have hkeep := hkept k' hk'
        rw [heq] at hkeep
        exact Above.push ⟨hkeep.frames, hkeep.handlers⟩ _
      · exact hcut
    · exact (hcut.setTop _).push _

theorem Above.inlineReturn (h : Above e vm) (hown : OwnHandlers e)
    (hn : e.frames.length ≤ vm.rootIndex) : Above e vm.inlineReturn := by
  unfold VM.inlineReturn
  have hpop := h.pop
  rw [← VM.rootIndex_pop] at hn
  generalize vm.pop = p at hpop hn ⊢
  obtain ⟨result, vm₁⟩ := p
  dsimp only at hpop hn ⊢
  split
  · exact hpop
  · next root _ =>
    have hclear := hpop.onlyHeap (VM.OnlyHeap.setCoroutine vm₁ root.closure none)
    exact ((hclear.cut hown hn).setTop _).push _

theorem Above.yield (h : Above e vm) (hown : OwnHandlers e)
    (hn : e.frames.length ≤ vm.rootIndex) : Above e vm.yield.vm := by
  unfold VM.yield
  have hpop := h.pop
  rw [← VM.rootIndex_pop] at hn
  generalize vm.pop = p at hpop hn ⊢
  obtain ⟨result, vm₁⟩ := p
  dsimp only at hpop hn ⊢
  split
  · exact hpop
  · next root _ =>
    have hclear := hpop.onlyHeap (VM.OnlyHeap.setCoroutine vm₁ root.closure none)
    split
    · exact hclear
    · have hsave := hclear.onlyHeap (VM.OnlyHeap.setCoroutine _ root.closure
        (some ((vm₁.clearCoroutineState root.closure).captureCoroutine vm₁.rootIndex root.slots
          false)))
      exact ((hsave.cut hown hn).setTop _).push _

/-- A saved activation has a frame. -/
def SavesFrames (vm : VM) : Prop :=
  ∀ r c k, vm.closure? r = some c → c.coroutine = some k → k.frames ≠ []

theorem SavesFrames.setCoroutine (h : SavesFrames vm) (r : Ref) {k : Option Coroutine}
    (hk : ∀ k', k = some k' → k'.frames ≠ []) : SavesFrames (vm.setCoroutine r k) := by
  cases hc : vm.closure? r with
  | none => rw [VM.setCoroutine, hc]; exact h
  | some c =>
    intro s c' k' hc' hk'
    by_cases hrs : r = s
    · subst hrs
      rw [VM.closure?_setCoroutine k hc] at hc'
      cases hc'
      exact hk k' hk'
    · refine h s c' k' ?_ hk'
      rw [← hc', VM.setCoroutine, hc]
      simp only [VM.closure?, VM.setObj, Heap.get?_set_ne hrs]

theorem SavesFrames.alloc (h : SavesFrames vm) (sizeof : ObjType → ℕ) (o : Obj)
    (ho : ∀ c, o ≠ .closure c) : SavesFrames (vm.alloc sizeof o).1 := by
  intro r c k hc
  refine h r c k ?_
  have hget := VM.get?_of_closure? hc
  rw [VM.alloc, Heap.get?_cons] at hget
  split at hget
  · exact absurd (Option.some.inj hget) (ho c)
  · exact VM.closure?_of_get? hget

theorem length_setTop (vm : VM) (t : ℤ) : (vm.setTop t).stack.length = t.toNat := by
  rw [VM.setTop, List.length_append, List.length_take, List.length_replicate]
  omega

theorem framesMade_pos (h : SavesFrames vm) {r : Ref} {c : ClosureObj}
    (hc : vm.closure? r = some c) : 0 < framesMade c := by
  unfold framesMade
  cases hk : c.coroutine with
  | none => exact Nat.one_pos
  | some k => exact List.length_pos_of_ne_nil (h r c k hc hk)

/-- A call with one argument that is not named makes a frame. -/
theorem lt_length_callClosure {r : Ref} {c : ClosureObj} {trace : Option CallTrace}
    {s : List Value} {w : Value} (hstack : vm.stack = s ++ [w]) (hw : vm.keyValue? w = none)
    (hc : 0 < framesMade c) (hok : vm.callClosure sizeof fmt r c 1 false trace = .ok vm') :
    vm.frames.length < vm'.frames.length := by
  have hlen := (callClosure_makes sizeof fmt vm r c 1 false trace).length vm' hok
  have hargs : vm.callArguments 1 false = [w] := by
    have htotal : VM.totalArgs 1 false = 1 := rfl
    have htop : (vm.callBase 1 false + 1).toNat = s.length := by
      simp only [VM.callBase, VM.top, htotal, hstack, List.length_append, List.length_singleton]
      omega
    simp [VM.callArguments, VM.arguments, VM.slot, htop, hstack]
  have hnamed : vm.namedArguments [w] = [] := by simp [VM.namedArguments, hw]
  rw [hargs, hnamed, if_neg (by simp [VM.hasUnreachableName])] at hlen
  omega

/-- The stack at a call of the handler `r` with the continuation: the last push may find no room. -/
theorem push_push_stack {h w : Value} (hlen : vm.stack.length < stackMax) :
    ∃ s, ((vm.push h).push w).stack = s ++ [w] ∨ ((vm.push h).push w).stack = s ++ [h] := by
  rw [VM.push_of_lt vm h hlen]
  unfold VM.push
  split
  · exact ⟨vm.stack, .inr rfl⟩
  · exact ⟨vm.stack ++ [h], .inl rfl⟩

/-- The call of a handler with a continuation makes a frame. -/
theorem lt_length_callHandler {r s : Ref} {c : ClosureObj} {k : ContinuationObj}
    {trace : Option CallTrace} (hlen : vm.stack.length < stackMax) (hc : vm.closure? r = some c)
    (hk : vm.objects.get? s = some (.continuation k)) (hpos : 0 < framesMade c)
    (hok : ((vm.push (.obj r)).push (.obj s)).callClosure sizeof fmt r c 1 false trace = .ok vm') :
    vm.frames.length < vm'.frames.length := by
  have hobj : ((vm.push (.obj r)).push (.obj s)).objects = vm.objects := by
    rw [VM.push_objects, VM.push_objects]
  have hframes : ((vm.push (.obj r)).push (.obj s)).frames = vm.frames := by
    rw [VM.push_frames, VM.push_frames]
  rw [← hframes]
  obtain ⟨l, hl | hl⟩ := push_push_stack (w := .obj s) (h := .obj r) hlen
  · exact lt_length_callClosure hl (by simp only [VM.keyValue?, hobj, hk]) hpos hok
  · exact lt_length_callClosure hl
      (by simp only [VM.keyValue?, hobj, VM.get?_of_closure? hc]) hpos hok

theorem Above.callcc (h : Above e vm) (hown : OwnHandlers e) (fmt : Printf)
    (hn : e.frames.length ≤ vm.rootIndex) (hvm : WellFormed vm)
    (hasArg : Bool) (text : Bytes) (line : ℤ) :
    Above e (vm.callcc sizeof fmt hasArg text line).vm := by
  unfold VM.callcc
  generalize hp : (if hasArg then vm.pop else (Value.null, vm)) = p
  obtain ⟨handler, vm₁⟩ := p
  have hsame : SameMarks vm vm₁ ∧ vm₁.objects = vm.objects := by
    split at hp
    · obtain rfl : vm.pop.2 = vm₁ := congrArg Prod.snd hp
      exact ⟨⟨VM.pop_frames vm, VM.pop_tryHandlers vm⟩, VM.pop_objects vm⟩
    · obtain rfl : vm = vm₁ := congrArg Prod.snd hp
      exact ⟨.refl vm, rfl⟩
  obtain ⟨hmarks, hobj⟩ := hsame
  have h₁ : Above e vm₁ := h.trans hmarks.above
  rw [← VM.rootIndex_congr hmarks.frames hobj] at hn
  have hsaves₁ : SavesFrames vm₁ := fun r c k hc => hvm.saved r c k (VM.closure?_congr r hobj ▸ hc)
  dsimp only
  split
  · exact h₁
  · next root hroot =>
    have hslots : root.slots < stackMax :=
      hvm.slots root (hmarks.frames ▸ List.mem_of_getElem? hroot)
    have hnew := h₁.onlyHeap (VM.OnlyHeap.alloc sizeof vm₁
      (.continuation (vm₁.callccContinuation root.closure)))
    have hget := VM.alloc_get?_self vm₁ sizeof
      (.continuation (vm₁.callccContinuation root.closure))
    have hsaves₂ := hsaves₁.alloc sizeof (.continuation (vm₁.callccContinuation root.closure))
      (by rintro _ ⟨⟩)
    have hframes₂ : (vm₁.alloc sizeof
      (.continuation (vm₁.callccContinuation root.closure))).1.frames = vm₁.frames := rfl
    generalize vm₁.alloc sizeof _ = p at hnew hget hsaves₂ hframes₂ ⊢
    obtain ⟨vm₂, continuation⟩ := p
    dsimp only at hnew hget hsaves₂ hframes₂ ⊢
    have hclear := VM.OnlyHeap.setCoroutine vm₂ root.closure none
    split
    · exact hnew.onlyHeap hclear
    · generalize hk : (vm₂.clearCoroutineState root.closure).captureCoroutine vm₁.rootIndex
        root.slots true = k
      have hsave := hclear.trans (VM.OnlyHeap.setCoroutine (vm₂.clearCoroutineState root.closure)
        root.closure (some k))
      have hkframes : k.frames ≠ [] := by
        rw [← hk]
        refine List.ne_nil_of_length_pos ?_
        rw [VM.captureCoroutine, List.length_map, List.length_drop, VM.clearCoroutineState,
          hclear.frames, hframes₂]
        exact Nat.sub_pos_of_lt (List.getElem?_eq_some_iff.1 hroot).1
      have hsaves₃ : SavesFrames
          ((vm₂.clearCoroutineState root.closure).setCoroutine root.closure (some k)) :=
        (hsaves₂.setCoroutine root.closure (by rintro _ ⟨⟩)).setCoroutine root.closure
          (by rintro _ ⟨⟩; exact hkframes)
      generalize VM.setCoroutine _ _ (some k) = vm₃ at hsave hsaves₃ ⊢
      have hcut := ((hnew.onlyHeap hsave).cut hown hn).setTop root.slots
      have hlen : (({ vm₃ with frames := vm₃.frames.take vm₁.rootIndex }.trimTryHandlers
        vm₁.rootIndex).setTop root.slots).stack.length < stackMax := by
        have : 0 < stackMax := by decide
        rw [length_setTop]
        omega
      have hget₃ := hsave.continuation _ _ hget
      split
      · next r =>
        split
        · next c hc =>
          have hcall := ((hcut.push (.obj r)).push (.obj continuation)).trans
            (callClosure_above sizeof fmt _ r c 1 false (some {}))
          split
          · next heq => rwa [heq] at hcall
          · next vm₄ heq =>
            rw [heq] at hcall
            have hlt := lt_length_callHandler hlen hc hget₃ (framesMade_pos hsaves₃ hc) heq
            split
            · next vm₅ call hin =>
              have hsame : SameMarks vm₄ vm₅ := by
                rcases Gc.internString_cases hin with rfl | ⟨_, _, rfl⟩ <;> exact ⟨rfl, rfl⟩
              -- the trace goes to the frame of the handler
              refine (hcall.trans hsame.above).modifyFrame ?_ _
              rw [hsame.frames]
              exact lt_of_le_of_lt hcut.length_frames hlt
            · exact hcall
        · exact hcut.push _
      · exact hcut.push _

theorem Above.invokeContinuation (sizeof : ObjType → ℕ) (vm : VM) {k : ContinuationObj}
    (hk : Kept e k) (argCount : ℕ) (hasMessage : Bool) (trace : CallTrace) :
    Above e (vm.invokeContinuation sizeof k argCount hasMessage trace) := by
  unfold VM.invokeContinuation
  dsimp only
  generalize vm.alloc sizeof _ = p
  obtain ⟨vm₁, ret⟩ := p
  refine Above.push ?_ _
  dsimp only
  split
  · next root hroot =>
    split at hroot
    · next hi =>
      have hle : e.frames.length ≤ k.resumeFrameIndex.toNat := by
        have := hk.resumed hi
        omega
      exact ⟨modify_isPrefix hk.frames hle _, hk.handlers⟩
    · cases hroot
  · exact ⟨hk.frames, hk.handlers⟩

theorem Above.popHandler (h : Above e vm) (hlen : e.tryHandlers.length < vm.tryHandlers.length) :
    Above e vm.popHandler := by
  refine ⟨h.frames, ?_⟩
  change _ <+: vm.tryHandlers.dropLast
  rw [List.dropLast_eq_take]
  exact take_isPrefix h.handlers (by omega)

theorem Above.catchWith (h : Above e vm) {t : TryHandler}
    (hlen : e.tryHandlers.length < vm.tryHandlers.length)
    (ht : (e.frames.length : ℤ) < t.frameCount) (hvm : e.frames.length < vm.frames.length)
    (exc : Value) : Above e (vm.catchWith t exc) := by
  have hcut : Above e { vm.popHandler with frames := vm.frames.take t.frameCount.toNat } :=
    (h.popHandler hlen).take (by omega)
  refine Above.push (Above.setTop (hcut.modifyFrame ?_ _) _) _
  change _ < (vm.frames.take _).length
  rw [List.length_take]
  omega

theorem Above.abortTo (h : Above e vm) (hown : OwnHandlers e) {stop : ℕ}
    (hn : e.frames.length ≤ stop) : Above e (vm.abortTo stop) := by
  have hcut := (h.take hn).trim (c := ((vm.frames.take stop).length : ℤ)) fun t ht => by
    have := hown t ht
    have := h.length_frames
    rw [List.length_take]
    omega
  exact ⟨(hcut.setTop _ |>.push .null).frames, (hcut.setTop _ |>.push .null).handlers⟩

end Above

/-! ### Runs above a mark -/

/-- The event does not reach below the frames and the handlers of `e`. -/
def Apart (e : VM) (m : Machine) : Event → Prop
  | .data _ i => e.frames.length ≤ i
  | .invoke k _ _ _ => Kept e k
  | .popHandler => m.vm.tryHandlers = [] ∨ e.tryHandlers.length < m.vm.tryHandlers.length
  | .throw => ∀ h, m.vm.tryHandlers.getLast? = some h →
    e.tryHandlers.length < m.vm.tryHandlers.length ∧ (e.frames.length : ℤ) < h.frameCount ∧
      e.frames.length < m.vm.frames.length
  | .opReturn => e.frames.length < m.vm.frames.length ∧ ∀ k, m.vm.returnsTo? = some k → Kept e k
  | .inlineReturn => e.frames.length ≤ m.vm.rootIndex
  | .yield => e.frames.length ≤ m.vm.rootIndex
  | .callcc _ _ _ => e.frames.length ≤ m.vm.rootIndex
  | .abort => e.frames.length ≤ m.stopCount
  | .callback argCount hasMessage _ => ∀ r k,
    m.vm.callee? (VM.totalArgs argCount hasMessage) = some (r, .continuation k) → Kept e k
  | .invokeMarker vm argCount => ∀ r k,
    vm.callee? (VM.totalArgs argCount true) = some (r, .continuation k) → Kept e k
  | _ => True

/-- What a caller puts back is not below the frames and the handlers of `e`. -/
def Caller.Keeps (e : VM) : Caller → Prop
  | .host => False
  | .plain => True
  | .restoring _ frameCount handlerCount =>
    e.frames.length ≤ frameCount ∧ e.tryHandlers.length ≤ handlerCount

/-- The outermost call, made in the machine `e`. -/
structure Call.IsOuter (e : VM) (target : Option ℤ) (c : Call) : Prop where
  caller : c.caller = .host
  target : c.target = target
  base : c.base = e.frames.length

/-- The machine in a run of a call that was made in the machine `e`. -/
structure Guarded (e : VM) (target : Option ℤ) (m : Machine) : Prop where
  above : Above e m.vm
  calls : ∃ inner c, m.calls = inner ++ [c] ∧ c.IsOuter e target ∧ ∀ c' ∈ inner, c'.caller.Keeps e

/-- A state in a run of a call that was made in the machine `e`. -/
def State.Guarded (e : VM) (target : Option ℤ) : State → Prop
  | .running m => Nested.Guarded e target m
  | .ended _ _ vm => Above e vm

section Guarded

variable {sizeof : ObjType → ℕ} {fmt : Printf} {e vm : VM} {target : Option ℤ} {m : Machine}

theorem Guarded.setVm (h : Guarded e target m) (hvm : Above e vm) : Guarded e target { m with vm } :=
  ⟨hvm, h.calls⟩

theorem Above.setHandlerCount (h : Above e vm) {count : ℕ} (hc : e.tryHandlers.length ≤ count) :
    Above e (vm.setHandlerCount count) :=
  ⟨h.frames, (take_isPrefix h.handlers hc).trans (List.prefix_append _ _)⟩

theorem Guarded.finish (h : Guarded e target m) (result : SlpResult)
    (value : Option Value) : (m.finish result value).Guarded e target := by
  obtain ⟨inner, c, hcalls, hc, hkeeps⟩ := h.calls
  unfold Machine.finish
  cases inner with
  | nil =>
    rw [hcalls]
    simp only [List.nil_append, hc.caller]
    exact h.above
  | cons c' inner =>
    rw [hcalls, List.cons_append]
    have hc' := hkeeps c' List.mem_cons_self
    have hinner : ∀ c'' ∈ inner, c''.caller.Keeps e := fun c'' hm =>
      hkeeps c'' (List.mem_cons_of_mem _ hm)
    cases hcaller : c'.caller with
    | host => rw [hcaller] at hc'; exact hc'.elim
    | plain =>
      simp only [hcaller]
      exact ⟨h.above, inner, c, rfl, hc, hinner⟩
    | restoring top frameCount handlerCount =>
      rw [hcaller] at hc'
      simp only [hcaller]
      exact ⟨((h.above.take hc'.1).setHandlerCount hc'.2).setTop top, inner, c, rfl, hc, hinner⟩

theorem Guarded.settle (h : Guarded e target m) (atZero : Bool) (value : Value) :
    (m.settle atZero value).Guarded e target := by
  unfold Machine.settle
  split
  · exact h.finish _ _
  · exact h

theorem Guarded.ofOutcome (h : Guarded e target m) {o : Outcome}
    (ho : Above e o.vm) : (m.ofOutcome o).Guarded e target := by
  unfold Machine.ofOutcome
  split
  · exact h.setVm ho
  · exact (h.setVm ho).finish _ _

theorem Guarded.ignore (h : Guarded e target m) (total : ℕ) :
    (m.ignore total).Guarded e target :=
  (h.setVm ((h.above.setTop _).push _)).finish _ _

/-- A call by a native function. -/
theorem Guarded.callVm (h : Guarded e target m) {argCount : ℕ}
    {hasMessage : Bool} {caller : Caller} (hcaller : caller.Keeps e)
    (hkept : ∀ r k, m.vm.callee? (VM.totalArgs argCount hasMessage) = some (r, .continuation k) →
      Kept e k) : (m.callVm sizeof fmt argCount hasMessage caller).Guarded e target := by
  have hcalls : ∀ t, ∃ inner c, ⟨t, m.vm.frames.length, caller,
      VM.totalArgs argCount hasMessage⟩ :: m.calls = inner ++ [c] ∧ c.IsOuter e target ∧
      ∀ c' ∈ inner, c'.caller.Keeps e := by
    intro t
    obtain ⟨inner, c, heq, hc, hkeeps⟩ := h.calls
    exact ⟨_ :: inner, c, by rw [heq, List.cons_append], hc,
      List.forall_mem_cons.2 ⟨hcaller, hkeeps⟩⟩
  have hm' : Guarded e target { m with calls := ⟨none, m.vm.frames.length, caller,
      VM.totalArgs argCount hasMessage⟩ :: m.calls } := ⟨h.above, hcalls none⟩
  unfold Machine.callVm
  dsimp only
  split
  · next r cl _ =>
    have hcall := h.above.trans
      (callClosure_above sizeof fmt m.vm r cl argCount hasMessage (some {}))
    split
    · next heq =>
      rw [heq] at hcall
      exact ⟨hcall, hcalls _⟩
    · next heq =>
      rw [heq] at hcall
      exact (hm'.setVm hcall).finish _ _
  · exact hm'
  · next r k heq =>
    exact (hm'.setVm (Above.invokeContinuation sizeof m.vm (hkept r k heq) _ _ _)).finish _ _
  · exact hm'.ignore _

theorem Guarded.callMarked (h : Guarded e target m) {argCount : ℕ}
    (hkept : ∀ r k, m.vm.callee? (VM.totalArgs argCount true) = some (r, .continuation k) →
      Kept e k) : (m.callMarked sizeof fmt argCount).Guarded e target := by
  unfold Machine.callMarked
  dsimp only
  split
  · next r cl _ =>
    have hcall := h.above.trans (callClosure_above sizeof fmt m.vm r cl argCount true (some {}))
    split
    · next heq =>
      rw [heq] at hcall
      exact (h.setVm hcall).finish _ _
    · next heq =>
      rw [heq] at hcall
      exact (h.setVm hcall).finish _ _
  · obtain ⟨inner, c, heq, hc, hkeeps⟩ := h.calls
    refine ⟨h.above, ?_⟩
    cases inner with
    | nil =>
      exact ⟨[], { c with totalArgs := VM.totalArgs argCount true }, by rw [heq]; rfl, ⟨hc.caller, hc.target, hc.base⟩, by simp⟩
    | cons c' inner =>
      refine ⟨_ :: inner, c, by rw [heq]; rfl, hc, ?_⟩
      exact List.forall_mem_cons.2 ⟨hkeeps c' List.mem_cons_self, fun c'' hm =>
        hkeeps c'' (List.mem_cons_of_mem _ hm)⟩
  · next r k heq =>
    exact (h.setVm (Above.invokeContinuation sizeof m.vm (hkept r k heq) _ _ _)).finish _ _
  · exact h.ignore _

/-- **What is below the mark stays** at an event that does not reach below it. -/
theorem Guarded.step (h : Guarded e target m) (hown : OwnHandlers e)
    {ev : Event} (hvm : WellFormed m.vm) (hlegal : m.Legal ev) (hapart : Apart e m ev) :
    (m.step sizeof fmt ev).Guarded e target := by
  cases ev with
  | data vm' i =>
    obtain ⟨⟨f, hf⟩, hh⟩ := hlegal
    exact h.setVm ⟨hf ▸ set_isPrefix h.above.frames hapart f, hh ▸ h.above.handlers⟩
  | call r cl argCount hasMessage trace =>
    exact h.ofOutcome (h.above.trans (callClosure_above ..))
  | invoke k argCount hasMessage trace => exact h.setVm (.invokeContinuation sizeof m.vm hapart ..)
  | pushHandler catchIp =>
    refine h.setVm ⟨?_, ?_⟩
    · unfold VM.pushHandler
      split <;> exact h.above.frames
    · unfold VM.pushHandler
      split
      · exact h.above.handlers.trans (List.prefix_append _ _)
      · exact h.above.handlers
  | popHandler =>
    obtain hnil | hlen := hapart
    · refine h.setVm (h.above.trans (.of_eq rfl ?_))
      rw [VM.popHandler, hnil]
      rfl
    · exact h.setVm (h.above.popHandler hlen)
  | throw =>
    have hpop := h.above.pop
    unfold Machine.step
    dsimp only
    split
    · next t ht =>
      rw [VM.pop_tryHandlers] at ht
      obtain ⟨hlen, hcount, hn⟩ := hapart t ht
      exact h.setVm (hpop.catchWith (by rw [VM.pop_tryHandlers]; exact hlen) hcount
        (by rw [VM.pop_frames]; exact hn) _)
    · refine Guarded.finish (h.setVm ?_) _ _
      exact ⟨hpop.frames, hpop.handlers⟩
  | opReturn =>
    have hret : Above e (m.vm.opReturn sizeof) := h.above.opReturn hown hapart.1 hvm hapart.2
    unfold Machine.step
    dsimp only
    split
    · exact h.setVm hret
    split
    · refine Guarded.finish (h.setVm ?_) _ _
      exact ⟨hret.frames, hret.handlers⟩
    · exact (h.setVm hret).settle _ _
  | inlineReturn => exact (h.setVm (h.above.inlineReturn hown hapart)).settle _ _
  | yield =>
    have hyield := h.above.yield hown hapart
    unfold Machine.step
    dsimp only
    split
    · next heq =>
      rw [heq] at hyield
      exact (h.setVm hyield).settle _ _
    · next heq =>
      rw [heq] at hyield
      exact (h.setVm hyield).finish _ _
  | callcc hasArg text line =>
    exact h.ofOutcome (h.above.callcc hown fmt hapart hvm hasArg text line)
  | abort =>
    have habort := h.setVm (h.above.abortTo hown hapart)
    unfold Machine.step
    dsimp only
    split
    · exact habort.finish _ _
    · exact habort.settle _ _
  | done => exact h.finish _ _
  | halt => exact h.finish _ _
  | error => exact h.finish _ _
  | callback argCount hasMessage caller =>
    refine h.callVm ?_ hapart
    cases caller with
    | host => exact hlegal.elim
    | plain => trivial
    | restoring top frameCount handlerCount =>
      obtain ⟨rfl, rfl⟩ := hlegal
      exact ⟨h.above.length_frames, h.above.length_handlers⟩
  | nativeReturn v => exact (h.setVm ((h.above.setTop _).push _)).finish _ _
  | invokeMarker vm' argCount =>
    obtain ⟨-, hf, hh⟩ := hlegal
    exact (h.setVm (h.above.trans (.of_eq hf hh))).callMarked hapart

/-- **What is below the mark stays** in a run whose events do not reach below it. -/
theorem Run.guarded {ok : Machine → Event → Prop} (hown : OwnHandlers e)
    (hok : ∀ m ev, ok m ev → Apart e m ev) {s s' : State} (hrun : Run sizeof fmt ok s s')
    (hs : s.Guarded e target) : s'.Guarded e target := by
  induction hrun with
  | start => exact hs
  | step _ ev hvm hlegal hev ih => exact Guarded.step ih hown hvm hlegal (hok _ ev hev)

end Guarded

end Nested

end Slp
