import Slp.Gc.Accounting
import Slp.Vm.Scope

/-!
# The arguments of a call

A call of a closure that is not suspended takes the callee, the message and the arguments off the
stack and lays out the twelve slots of the new frame over them: the callee, the message, nine
arguments and the array `@_`; the named arguments are bound in the local scope
(`callClosure_activates`).  Code that is inline shares the scopes of the frame it is called from;
other code gets new ones.

A named argument with a key that no variable can have ends the call with a warning, and no frame is
made (`callClosure_unreachable`).
-/

namespace Slp

open HashObj (nameLabels KeepsStrings)

namespace VM

variable {sizeof : ObjType → ℕ} {fmt : Printf} {vm vm' : VM} {r : Ref} {c : ClosureObj}

/-! ### Pushing several values -/

theorem foldl_push (vm : VM) (vs : List Value) (h : vm.stack.length + vs.length ≤ stackMax) :
    vs.foldl push vm = { vm with stack := vm.stack ++ vs } := by
  induction vs generalizing vm with
  | nil => rw [List.foldl_nil, List.append_nil]
  | cons v vs ih =>
    rw [List.length_cons] at h
    rw [List.foldl_cons, push_of_lt vm v (by omega), ih _ (by
      simp only [List.length_append, List.length_singleton]
      omega)]
    simp only [List.append_assoc, List.singleton_append]

/-! ### The scopes of a new activation -/

/-- The objects but for the one at `r` stay what they are. -/
def ExtendsBut (r : Ref) (h h' : Heap) : Prop :=
  ∀ q o, q ≠ r → h.get? q = some o → h'.get? q = some o

theorem ExtendsBut.refl (r : Ref) (h : Heap) : ExtendsBut r h h := fun _ _ _ ho => ho

theorem ExtendsBut.trans {h h' h'' : Heap} (hh : ExtendsBut r h h') (hh' : ExtendsBut r h' h'') :
    ExtendsBut r h h'' := fun q o hq ho => hh' q o hq (hh q o hq ho)

theorem extendsBut_alloc (vm : VM) (o : Obj) (r : Ref) :
    ExtendsBut r vm.objects (vm.alloc sizeof o).1.objects :=
  fun _ _ _ ho => alloc_get?_of_some vm sizeof o ho

theorem extendsBut_setObj (vm : VM) (r : Ref) (o : Obj) :
    ExtendsBut r vm.objects (vm.setObj r o).objects := fun _ _ hq ho => by
  rw [setObj, Heap.get?_set_ne (Ne.symm hq), ho]

/-- A new string is linked at a new address. -/
theorem extendsBut_internString {n : ℕ} {chars : Bytes} {s : Ref}
    (hin : Intern.internString n vm chars = some (vm', s)) (r : Ref) :
    ExtendsBut r vm.objects vm'.objects ∧ vm'.stack = vm.stack ∧ vm'.frames = vm.frames := by
  rcases Gc.internString_cases hin with rfl | ⟨_, _, rfl⟩
  · exact ⟨.refl _ _, rfl, rfl⟩
  · refine ⟨fun q o _ ho => ?_, rfl, rfl⟩
    rw [Heap.get?_cons, Intern.newString, if_neg (Heap.ne_freshRef ho).symm, ho]

/-- The scope of a closure is made at its first use, at a new address. -/
theorem ensureClosureScope_spec (sizeof : ObjType → ℕ) (fmt : Printf) (vm : VM) (r : Ref)
    (c : ClosureObj) :
    ExtendsBut r vm.objects (ensureClosureScope sizeof fmt vm r c).1.objects ∧
      (ensureClosureScope sizeof fmt vm r c).1.stack = vm.stack ∧
      (ensureClosureScope sizeof fmt vm r c).1.frames = vm.frames := by
  unfold ensureClosureScope
  split
  · exact ⟨.refl _ _, rfl, rfl⟩
  · have halloc : ExtendsBut r vm.objects (vm.alloc sizeof (.hash {})).1.objects :=
      extendsBut_alloc vm (.hash {}) r
    have hset := extendsBut_setObj (vm.alloc sizeof (.hash {})).1 r
      (.closure { c with scope := some (vm.alloc sizeof (.hash {})).2 })
    dsimp only
    split
    · next vm' name hin =>
      obtain ⟨hext, hstack, hframes⟩ := extendsBut_internString hin r
      refine ⟨fun q o hq ho => ?_, hstack, hframes⟩
      have hq' : vm.objects.freshRef ≠ q := (Heap.ne_freshRef ho).symm
      have hold := hext q o hq (hset q o hq (halloc q o hq ho))
      show (Heap.set vm'.objects vm.objects.freshRef _).get? q = some o
      rwa [Heap.get?_set_ne hq']
    · exact ⟨halloc.trans hset, rfl, rfl⟩

/-- The frame has a local scope, a table of names with these bindings. -/
def HasScope (fmt : Printf) (vm : VM) (f : CallFrame) (d : Bytes → Option Value) : Prop :=
  ∃ s t, vm.currentLocalScope? f = some (s, t) ∧ HashObj.Refines (nameLabels fmt vm.objects) t d

/-- The local scope of a frame depends on the heap only. -/
theorem currentLocalScope?_congr {f f' : CallFrame} (hobj : vm'.objects = vm.objects)
    (hf : f'.localScopes = f.localScopes) :
    vm'.currentLocalScope? f' = vm.currentLocalScope? f := by
  simp only [currentLocalScope?, hobj, hf]

theorem currentLocalScope?_eq_some {f : CallFrame} {s : Ref} {t : HashObj} :
    vm.currentLocalScope? f = some (s, t) ↔
      ∃ scopes a, f.localScopes = some scopes ∧ vm.objects.get? scopes = some (.array a) ∧
        a.count ≠ 0 ∧ a.elements.getD (a.count - 1) .null = .obj s ∧
        vm.objects.get? s = some (.hash t) := by
  unfold currentLocalScope?
  constructor
  · intro h
    obtain ⟨scopes, hscopes, h⟩ := Option.bind_eq_some_iff.1 h
    obtain ⟨o, ho, h⟩ := Option.bind_eq_some_iff.1 h
    split at h
    · next a =>
      split_ifs at h with hcount
      split at h
      · next s' hs' =>
        obtain ⟨o', ho', h⟩ := Option.bind_eq_some_iff.1 h
        split at h
        · cases h
          exact ⟨scopes, a, hscopes, ho, hcount, hs', ho'⟩
        · cases h
      · cases h
    · cases h
  · rintro ⟨scopes, a, hscopes, ho, hcount, hs, hs'⟩
    simp only [hscopes, ho, hcount, hs, hs', Option.bind_eq_bind, Option.bind_some, if_false]
    rfl

/-- A local scope is not touched by a change of a closure. -/
theorem currentLocalScope?_of_extendsBut {f f' : CallFrame} {s : Ref} {t : HashObj}
    (hext : ExtendsBut r vm.objects vm'.objects) (hr : ∃ c, vm.objects.get? r = some (.closure c))
    (hf : f'.localScopes = f.localScopes) (hs : vm.currentLocalScope? f = some (s, t)) :
    vm'.currentLocalScope? f' = some (s, t) := by
  obtain ⟨c, hc⟩ := hr
  have hne : ∀ {q : Ref} {o : Obj}, vm.objects.get? q = some o → (∀ c, o ≠ .closure c) → q ≠ r := by
    rintro q o ho hno rfl
    exact hno c (Option.some.inj (ho.symm.trans hc))
  obtain ⟨scopes, a, hscopes, ha, hcount, hlast, hhash⟩ := currentLocalScope?_eq_some.1 hs
  refine currentLocalScope?_eq_some.2 ⟨scopes, a, hf.trans hscopes, ?_, hcount, hlast, ?_⟩
  · exact hext _ _ (hne ha (by rintro c ⟨⟩)) ha
  · exact hext _ _ (hne hhash (by rintro c ⟨⟩)) hhash

theorem ExtendsBut.keepsStrings {h h' : Heap} (hext : ExtendsBut r h h')
    (hr : ∃ c, h.get? r = some (.closure c)) : KeepsStrings h h' := by
  obtain ⟨c, hc⟩ := hr
  intro q s hs
  refine hext q _ ?_ hs
  rintro rfl
  rw [hc] at hs
  cases hs

/-- The bindings of the local scope that a new activation starts with: those of the frame that inline
code is called from, else none. -/
structure StartScope (fmt : Printf) (vm : VM) (c : ClosureObj) (d : Bytes → Option Value) :
    Prop where
  inline : c.isInline = true → ∀ f, vm.currentFrame? = some f → vm.HasScope fmt f d
  fresh : c.isInline = false ∨ vm.currentFrame? = none → d = fun _ => none

/-- An allocation, and what it leaves. -/
structure Allocates (vm : VM) (o : Obj) (vm' : VM) (q : Ref) : Prop where
  stack : vm'.stack = vm.stack
  frames : vm'.frames = vm.frames
  self : vm'.objects.get? q = some o
  others : ∀ {p o'}, vm.objects.get? p = some o' → vm'.objects.get? p = some o' ∧ p ≠ q

theorem exists_allocates (sizeof : ObjType → ℕ) (vm : VM) (o : Obj) :
    ∃ vm' q, vm.alloc sizeof o = (vm', q) ∧ Allocates vm o vm' q :=
  ⟨_, _, rfl, rfl, rfl, alloc_get?_self vm sizeof o,
    fun ho => ⟨alloc_get?_of_some vm sizeof o ho, Heap.ne_freshRef ho⟩⟩

/-- The array of scopes with its first scope, both at new addresses. -/
theorem exists_newScopes (sizeof : ObjType → ℕ) (vm : VM) (hc : vm.closure? r = some c) :
    ∃ vm₁ scopes vm₂ hash, vm.alloc sizeof (.array {}) = (vm₁, scopes) ∧
      vm₁.alloc sizeof (.hash {}) = (vm₂, hash) ∧ vm₂.stack = vm.stack ∧ vm₂.frames = vm.frames ∧
      let vm₃ := vm₂.setObj scopes (.array (({} : ArrayObj).push (.obj hash)))
      ExtendsBut r vm.objects vm₃.objects ∧ vm₃.closure? r = some c ∧
        vm₃.objects.get? scopes = some (.array (({} : ArrayObj).push (.obj hash))) ∧
        vm₃.objects.get? hash = some (.hash {}) := by
  obtain ⟨vm₁, scopes, heq₁, halloc₁⟩ := exists_allocates sizeof vm (.array {})
  obtain ⟨vm₂, hash, heq₂, halloc₂⟩ := exists_allocates sizeof vm₁ (.hash {})
  have hold : ∀ {q o}, vm.objects.get? q = some o →
      (vm₂.setObj scopes (.array (({} : ArrayObj).push (.obj hash)))).objects.get? q = some o := by
    intro q o ho
    obtain ⟨ho₁, hne⟩ := halloc₁.others ho
    rw [setObj, Heap.get?_set_ne hne.symm]
    exact (halloc₂.others ho₁).1
  refine ⟨vm₁, scopes, vm₂, hash, heq₁, heq₂, halloc₂.stack.trans halloc₁.stack,
    halloc₂.frames.trans halloc₁.frames, fun q o _ ho => hold ho,
    closure?_of_get? (hold (get?_of_closure? hc)), ?_, ?_⟩
  · obtain ⟨hscopes, -⟩ := halloc₂.others halloc₁.self
    exact Heap.get?_set_self (by rw [hscopes]; rfl)
  · obtain ⟨-, hne⟩ := halloc₂.others halloc₁.self
    rw [setObj, Heap.get?_set_ne hne]
    exact halloc₂.self

/-- A new activation has a local scope. -/
theorem activationScopes_spec {d : Bytes → Option Value} {f : CallFrame}
    (hc : vm.closure? r = some c) (hstart : StartScope fmt vm c d)
    (hf : f.localScopes = (activationScopes sizeof fmt vm r c).2.1) :
    ExtendsBut r vm.objects (activationScopes sizeof fmt vm r c).1.objects ∧
      (activationScopes sizeof fmt vm r c).1.stack = vm.stack ∧
      (activationScopes sizeof fmt vm r c).1.frames = vm.frames ∧
      (activationScopes sizeof fmt vm r c).1.HasScope fmt f d := by
  unfold activationScopes at hf ⊢
  split at hf
  · next g hinline hframe =>
    obtain ⟨s, t, hs, ht⟩ := hstart.inline hinline g hframe
    exact ⟨.refl _ _, rfl, rfl, s, t, (currentLocalScope?_congr rfl hf).trans hs, ht⟩
  · next hno =>
    have hd : d = fun _ => none := by
      refine hstart.fresh ?_
      cases hi : c.isInline with
      | false => exact .inl rfl
      | true =>
        cases hcur : vm.currentFrame? with
        | none => exact .inr rfl
        | some g => exact absurd hcur (hno g hi)
    obtain ⟨vm₁, scopes, vm₂, hash, halloc₁, halloc₂, hstack, hframes, hext, hc₃, hscopes, hhash⟩ :=
      exists_newScopes sizeof vm hc
    rw [halloc₁] at hf ⊢
    dsimp only at hf ⊢
    rw [halloc₂]
    dsimp only
    obtain ⟨hens, hstack', hframes'⟩ := ensureClosureScope_spec sizeof fmt
      (vm₂.setObj scopes (.array (({} : ArrayObj).push (.obj hash)))) r c
    refine ⟨hext.trans hens, hstack'.trans hstack, hframes'.trans hframes, hash, {}, ?_, ?_⟩
    · refine currentLocalScope?_of_extendsBut (f := { closure := r, slots := 0, localScopes := scopes })
        hens ⟨c, get?_of_closure? hc₃⟩ hf (currentLocalScope?_eq_some.2
          ⟨scopes, _, rfl, hscopes, ?_, ?_, hhash⟩)
      · exact Nat.one_ne_zero
      · rfl
    · rw [hd]
      exact HashObj.Refines.empty rfl rfl

/-! ### The frame -/

/-- What a call owes the activation it makes: the frame, its twelve slots above a stack that is what it
was, the array of the positional arguments, and the bindings of the named ones. -/
structure Activated (fmt : Printf) (vm vm' : VM) (r : Ref) (slots : ℤ) (message : Value)
    (positional named : List Value) (frame : CallFrame) (args : Ref) : Prop where
  frames : vm'.frames = vm.frames ++ [frame]
  closure : frame.closure = r
  base : frame.slots = slots
  stack : vm'.stack = vm.stack.take (slots + 1).toNat ++
    (message :: ((List.range 9).map fun i => positional.getD i .null) ++ [.obj args])
  top : vm'.top = slots + 12
  args : ∃ a, vm'.objects.get? args = some (.array a) ∧
    a.live = positional.map vm.objects.dereferenceValue
  named : ∃ s t, vm'.currentLocalScope? frame = some (s, t) ∧
    ∀ key name value, vm'.string? key = some name → vm'.binding? named name = some value →
      (t.getRaw fmt vm'.objects key).2 = value

theorem stack_setTop_of_le {t : ℤ} (h : t ≤ vm.top) (h0 : 0 ≤ t) :
    (vm.setTop t).stack = vm.stack.take t.toNat ∧ ((vm.setTop t).stack.length : ℤ) = t := by
  have htake := setTop_of_le vm h
  refine ⟨htake, ?_⟩
  rw [htake, List.length_take]
  unfold top at h
  omega

/-- The slots of a frame, pushed one after the other. -/
theorem stack_of_slots {slots : ℤ} (hslots : 0 ≤ slots) (htop : slots + 1 ≤ vm.top)
    (hmax : slots + 12 ≤ stackMax) (message last : Value) {nine : List Value} (hnine : nine.length = 9) :
    (nine.foldl push ((vm.setTop (slots + 1)).push message)).push last =
      { vm with stack := vm.stack.take (slots + 1).toNat ++ (message :: nine ++ [last]) } := by
  obtain ⟨htake, hlen⟩ := stack_setTop_of_le htop (by omega)
  have hall : (nine.foldl push ((vm.setTop (slots + 1)).push message)).push last =
      (message :: nine ++ [last]).foldl push (vm.setTop (slots + 1)) := by
    rw [List.cons_append, List.foldl_cons, List.foldl_append, List.foldl_cons, List.foldl_nil]
  rw [hall, foldl_push _ _ (by
    simp only [List.length_append, List.length_cons, List.length_nil]
    omega), htake]
  rfl

/-- Scopes stay where they are when the heap grows. -/
theorem HasScope.extend {f f' : CallFrame} {d : Bytes → Option Value} (hs : vm.HasScope fmt f d)
    (hext : ExtendsBut r vm.objects vm'.objects) (hc : vm.closure? r = some c)
    (hf : f'.localScopes = f.localScopes) : vm'.HasScope fmt f' d := by
  obtain ⟨s, t, hlocal, ht⟩ := hs
  exact ⟨s, t, currentLocalScope?_of_extendsBut hext ⟨c, get?_of_closure? hc⟩ hf hlocal,
    ht.rename (hext.keepsStrings ⟨c, get?_of_closure? hc⟩)⟩

theorem setTrace_fields (trace : Option CallTrace) (f : CallFrame) :
    (setTrace trace f).closure = f.closure ∧ (setTrace trace f).slots = f.slots ∧
      (setTrace trace f).localScopes = f.localScopes := by
  cases trace <;> exact ⟨rfl, rfl, rfl⟩

/-- The named arguments are stored in the local scope of the frame. -/
theorem storeNamed_activated {f : CallFrame} {named : List Value} {d : Bytes → Option Value}
    (hs : vm.HasScope fmt f d)
    (hok : storeNamed fmt ((vm.currentLocalScope? f).map (·.1)) vm named = .ok vm') :
    vm' = { vm with objects := vm'.objects } ∧ SameButHashes vm.objects vm'.objects ∧
      ∃ s t, vm'.currentLocalScope? f = some (s, t) ∧
        ∀ key name value, vm'.string? key = some name → vm'.binding? named name = some value →
          (t.getRaw fmt vm'.objects key).2 = value := by
  obtain ⟨s, t, hlocal, ht⟩ := hs
  rw [hlocal] at hok
  obtain ⟨scopes, a, hscopes, ha, hcount, hlast, hhash⟩ := currentLocalScope?_eq_some.1 hlocal
  obtain ⟨hvm, hsame, t', ht', hscope'⟩ := storeNamed_refines hhash ht hok
  refine ⟨hvm, hsame, s, t', currentLocalScope?_eq_some.2 ⟨scopes, a, hscopes,
    (hsame.get?_eq (by rintro t ⟨⟩)).2 ha, hcount, hlast, ht'⟩, fun key name value hname hvalue => ?_⟩
  rw [hscope'.getRaw_name (string?_eq_nameText vm' key ▸ hname), bindings, hvalue]
  rfl

/-- A call that enters the closure makes its activation. -/
theorem enterClosure_activated {slots : ℤ} {message : Value} {positional named : List Value}
    {trace : Option CallTrace} {d : Bytes → Option Value} (hc : vm.closure? r = some c)
    (hstart : StartScope fmt vm c d) (hslots : 0 ≤ slots) (htop : slots + 1 ≤ vm.top)
    (hok : enterClosure sizeof fmt vm r c slots message positional named trace = .ok vm') :
    ∃ frame args, Activated fmt vm vm' r slots message positional named frame args := by
  unfold enterClosure at hok
  split_ifs at hok with hmax
  obtain ⟨vm₁, args, heq₁, halloc₁⟩ := exists_allocates sizeof vm
    (.array ((positional.map vm.objects.dereferenceValue).foldl ArrayObj.push {}))
  have hext₁ : ExtendsBut r vm.objects vm₁.objects := fun _ _ _ ho => (halloc₁.others ho).1
  have hc₁ : vm₁.closure? r = some c :=
    closure?_of_get? (halloc₁.others (get?_of_closure? hc)).1
  have hcur : vm₁.currentFrame? = vm.currentFrame? := by rw [currentFrame?, halloc₁.frames]; rfl
  have hstart₁ : StartScope fmt vm₁ c d :=
    ⟨fun hi f hf => (hstart.inline hi f (hcur ▸ hf)).extend hext₁ hc rfl,
      fun h => hstart.fresh (hcur ▸ h)⟩
  dsimp only at hok
  rw [heq₁] at hok
  dsimp only at hok
  cases hscopes : activationScopes sizeof fmt vm₁ r c with
  | mk vm₂ scopes =>
    obtain ⟨localScopes, closureScope⟩ := scopes
    rw [hscopes] at hok
    dsimp only at hok
    -- what is known of the frame
    generalize hframe : setTrace trace _ = frame at hok
    have hlocals : frame.localScopes = (activationScopes sizeof fmt vm₁ r c).2.1 := by
      rw [hscopes, ← hframe]
      exact (setTrace_fields _ _).2.2
    obtain ⟨hext₂, hstack₂, hframes₂, hlocal⟩ := activationScopes_spec hc₁ hstart₁ hlocals
    rw [hscopes] at hext₂ hstack₂ hframes₂ hlocal
    dsimp only at hext₂ hstack₂ hframes₂ hlocal
    have hstack : vm₂.stack = vm.stack := hstack₂.trans halloc₁.stack
    have htop₂ : slots + 1 ≤ vm₂.top := by rw [top, hstack]; exact htop
    rw [stack_of_slots hslots htop₂ (by omega) message (.obj args) (by
      rw [List.length_map, List.length_range])] at hok
    have hlocal' : HasScope fmt { vm₂ with
        stack := vm₂.stack.take (slots + 1).toNat ++
          (message :: ((List.range 9).map fun i => positional.getD i .null) ++ [.obj args])
        frames := vm₂.frames ++ [frame] } frame d := hlocal
    obtain ⟨hvm, hsame, hnamed⟩ := storeNamed_activated hlocal' hok
    have hargs : vm'.objects.get? args = some _ := (hsame.get?_eq (by rintro t ⟨⟩)).2
      (hext₂ _ _ (halloc₁.others (get?_of_closure? hc)).2.symm halloc₁.self)
    refine ⟨frame, args, ?_, ?_, ?_, ?_, ?_, ⟨_, hargs, ?_⟩, hnamed⟩
    · rw [hvm, hframes₂, halloc₁.frames]
    · rw [← hframe]
      exact (setTrace_fields _ _).1
    · rw [← hframe]
      exact (setTrace_fields _ _).2.1
    · rw [hvm, hstack]
    · rw [hvm, top, hstack]
      unfold top at htop
      simp only [List.length_append, List.length_take, List.length_cons, List.length_map,
        List.length_range, List.length_nil]
      omega
    · rw [ArrayObj.live_foldl_push (Nat.le_refl _)]
      rfl

/-- **A call lays out its arguments**: when a call of a closure that is not suspended, with the
callee and the arguments on the stack, ends without an error and no named argument has a name that no
variable can have, the new frame has its twelve slots. -/
theorem callClosure_activates {argCount : ℕ} {hasMessage : Bool} {trace : Option CallTrace}
    {d : Bytes → Option Value} (hc : vm.closure? r = some c) (hfresh : c.coroutine = none)
    (hstack : totalArgs argCount hasMessage < vm.stack.length) (hstart : StartScope fmt vm c d)
    (hnames : vm.hasUnreachableName
      (vm.namedArguments (vm.callArguments argCount hasMessage)) = false)
    (hok : callClosure sizeof fmt vm r c argCount hasMessage trace = .ok vm') :
    ∃ frame args, Activated fmt vm vm' r (vm.callBase argCount hasMessage)
      (vm.callMessage c argCount hasMessage)
      (vm.positionalArguments (vm.callArguments argCount hasMessage))
      (vm.namedArguments (vm.callArguments argCount hasMessage)) frame args := by
  unfold callClosure at hok
  split_ifs at hok
  dsimp only at hok
  rw [hnames, hfresh, if_neg Bool.false_ne_true] at hok
  have hbase : vm.callBase argCount hasMessage =
      (vm.stack.length : ℤ) - totalArgs argCount hasMessage - 1 := rfl
  exact enterClosure_activated hc hstart (by omega) (by rw [top]; omega) hok

/-! ### Two calls -/

/-- A closure is called with a number and a pair with this name. -/
def pairCall (name : Bytes) : VM where
  stack := [.obj 0, .num 5, .obj 2]
  objects := [⟨2, false, .keyValue (.obj 1) (.num 7)⟩, ⟨1, false, .string ⟨name, hashString name⟩⟩,
    ⟨0, false, .closure { function := 3 }⟩]

/-- Names need no formatting. -/
def plainPrintf : Printf := ⟨fun _ => [], fun _ => []⟩

/-- A positional argument and one that is named `$x`. -/
theorem callClosure_activates_pairCall : ∃ vm' frame args,
    callClosure (fun _ => 16) plainPrintf (pairCall (ascii "$x")) 0 { function := 3 } 2 false none =
        .ok vm' ∧
      Activated plainPrintf (pairCall (ascii "$x")) vm' 0 0 .null [.num 5] [.obj 2] frame args := by
  have hisOk : (callClosure (fun _ => 16) plainPrintf (pairCall (ascii "$x")) 0 { function := 3 } 2
      false none).isOk = true := by decide +kernel
  cases hok : callClosure (fun _ => 16) plainPrintf (pairCall (ascii "$x")) 0 { function := 3 } 2
    false none with
  | error message vm' =>
    rw [hok] at hisOk
    cases hisOk
  | ok vm' =>
    obtain ⟨frame, args, h⟩ := callClosure_activates (d := fun _ => none) rfl rfl (by decide)
      ⟨fun hi => absurd hi Bool.false_ne_true, fun _ => rfl⟩ (by decide) hok
    exact ⟨vm', frame, args, rfl, h⟩

/-- With the name `a` the call ends without an error, and there is no frame. -/
theorem callClosure_unreachable : ∃ vm',
    callClosure (fun _ => 16) plainPrintf (pairCall (ascii "a")) 0 { function := 3 } 2 false none =
        .ok vm' ∧
      ¬ ∃ frame args,
        Activated plainPrintf (pairCall (ascii "a")) vm' 0 0 .null [.num 5] [.obj 2] frame args := by
  refine ⟨{ pairCall (ascii "a") with stack := [.null] }, rfl, ?_⟩
  rintro ⟨frame, args, h⟩
  exact absurd h.frames (List.cons_ne_nil _ _).symm

end VM

end Slp
