import Slp.Vm.CallValue

/-!
# Evaluating a text in place

`slp_vm_eval_inline` compiles a text to an inline closure, which shares the scopes of the current
frame, and calls it with `slp_vm_call`.  Meanwhile the text may have a source name of its own.

## Main definitions

* `SourceName`, `setSourceName` : the path and the name of the source that is executed.
* `EvalInline` : the evaluations, with what they return.
* `RestoresCaller` : what the caller should find afterwards.
* `KeepsScopes`, `Restorable` : when it does, besides `Apart`.
-/

namespace Slp

namespace Nested

/-! ### The source name -/

/-- `vm->source_path` and `vm->source_name`. -/
structure SourceName where
  path : Option Bytes := none
  name : Option Bytes := none
  deriving DecidableEq

def isSeparator (c : UInt8) : Bool := c == 47 || c == 92

def isLetter (c : UInt8) : Bool := (65 ≤ c && c ≤ 90) || (97 ≤ c && c ≤ 122)

/-- A name that starts with `<` names no file. -/
def isPseudo (name : Bytes) : Bool := name.head? == some 60

/-- Whether the path starts at a root or a drive. -/
def isAbsolute : Bytes → Bool
  | [] => false
  | c :: cs => isSeparator c || (isLetter c && cs.head? == some 58)

/-- What follows the last separator. -/
def baseName (path : Bytes) : Bytes := (path.reverse.takeWhile fun c => !isSeparator c).reverse

/-- A name in the directory. -/
def inDirectory (separator : UInt8) (dir name : Bytes) : Bytes :=
  let needsSeparator := match dir.getLast? with
    | some c => !isSeparator c
    | none => false
  dir ++ (if needsSeparator then [separator] else []) ++ name

/-- The path of a source, in the working directory `cwd` if it has one. -/
def sourcePath (separator : UInt8) (cwd : Option Bytes) (name : Bytes) : Bytes :=
  if isPseudo name || isAbsolute name then name
  else match cwd with
    | some dir => inDirectory separator dir name
    | none => name

/-- The global variable `$__SCRIPT__` assigned. -/
def setScript (sizeof : ObjType → ℕ) (fmt : Printf) (vm : VM) (name : Bytes) : VM :=
  match vm.globals with
  | none => vm
  | some globals =>
    match Intern.internString (sizeof .string) vm (ascii "$__SCRIPT__") with
    | none => vm
    | some (vm, key) =>
      match Intern.internString (sizeof .string) vm name with
      | none => vm
      | some (vm, value) =>
        match vm.objects.get? globals with
        | some (.hash t) => vm.setObj globals (.hash (t.set fmt vm.objects (.obj key) (.obj value)))
        | _ => vm

/-- `slp_vm_set_source_name`. -/
def setSourceName (sizeof : ObjType → ℕ) (fmt : Printf) (separator : UInt8) (cwd : Option Bytes)
    (vm : VM) (name : Bytes) : VM × SourceName :=
  if name = [] then (vm, {})
  else
    let path := sourcePath separator cwd name
    (setScript sizeof fmt vm (baseName path), ⟨some path, some (baseName path)⟩)

/-! ### Evaluating -/

/-- What the parser and the compiler do to the machine: they make objects. -/
structure Compiles (vm vm' : VM) : Prop where
  stack : vm'.stack = vm.stack
  marks : SameMarks vm vm'
  objects : ∀ r o, vm.objects.get? r = some o → vm'.objects.get? r = some o

section Eval

variable (sizeof : ObjType → ℕ) (fmt : Printf) (separator : UInt8)

/-- The machine and the source name in which the text is compiled. -/
def startEval (cwd : Option Bytes) (vm : VM) (source : SourceName) (name : Bytes) :
    VM × SourceName :=
  if name = [] then (vm, source) else setSourceName sizeof fmt separator cwd vm name

/-- The source name set back to the path that was saved, if there was one. -/
def restoreSource (cwd : Option Bytes) (saved : SourceName) (vm : VM) (source : SourceName) :
    VM × SourceName :=
  match saved.path with
  | none => (vm, source)
  | some [] => (vm, source)
  | some path => setSourceName sizeof fmt separator cwd vm path

/-- The inline closure of the compiled text pushed. -/
def pushInline (vm : VM) (function : Ref) (f : FunctionObj) : VM :=
  let (vm, closure) := vm.alloc sizeof (.closure
    { function, upvalues := List.replicate f.upvalueCount none, isInline := true })
  vm.push (.obj closure)

/-- `slp_vm_eval_inline` in the machine `vm` with the source name `source`: what it returns,
`*result_value`, the machine, and the source name.  The working directory is `cwd` before and `cwd'`
after, and the text ends with the source name `during`. -/
inductive EvalInline (ok : Machine → Event → Prop) (cwd cwd' : Option Bytes) (vm : VM)
    (source : SourceName) (name : Bytes) (during : SourceName) :
    SlpResult → Value → VM → SourceName → Prop where
  /-- An error of the parser or the compiler. -/
  | refused {vm₁ : VM}
    (hcompile : Compiles (startEval sizeof fmt separator cwd vm source name).1 vm₁)
    (hduring : during = (startEval sizeof fmt separator cwd vm source name).2) :
    EvalInline ok cwd cwd' vm source name during .compileError .null
      (restoreSource sizeof fmt separator cwd' source vm₁ during).1
      (restoreSource sizeof fmt separator cwd' source vm₁ during).2
  | called {vm₁ vm₂ : VM} {function : Ref} {f : FunctionObj} {result : SlpResult}
    {value : Option Value}
    (hcompile : Compiles (startEval sizeof fmt separator cwd vm source name).1 vm₁)
    (hfunction : vm₁.objects.get? function = some (.function f))
    (hrun : Run sizeof fmt ok
      (Machine.callVm sizeof fmt ⟨pushInline sizeof vm₁ function f, []⟩ 0 false .host)
      (.ended result value vm₂)) :
    EvalInline ok cwd cwd' vm source name during result
      (if result = .ok ∧ vm₁.top < vm₂.top then vm₂.objects.dereferenceValue (vm₂.peek 0) else .null)
      (restoreSource sizeof fmt separator cwd' source
        (vm₂.restoreMarks vm₁.top vm₁.frames.length vm₁.tryHandlers.length) during).1
      (restoreSource sizeof fmt separator cwd' source
        (vm₂.restoreMarks vm₁.top vm₁.frames.length vm₁.tryHandlers.length) during).2

end Eval

/-! ### What the caller should find -/

/-- The address of the local scopes of a frame. -/
def ScopesOf (vm : VM) : Set Ref := {r | ∃ f ∈ vm.frames, f.localScopes = some r}

/-- The arrays at the addresses in `S` are what they were. -/
def KeepsArrays (S : Set Ref) (h h' : Heap) : Prop :=
  ∀ r ∈ S, ∀ a, h.get? r = some (.array a) → h'.get? r = some (.array a)

/-- What the caller should find after an evaluation in the machine `vm`: its frames, with their
instruction pointers, and the scopes on the stacks of local scopes of its frames. -/
structure RestoresCaller (vm : VM) (source : SourceName) (vm' : VM) (source' : SourceName) : Prop where
  top : vm'.top = vm.top
  frames : vm'.frames = vm.frames
  tryHandlers : vm'.tryHandlers = vm.tryHandlers
  localScopes : KeepsArrays (ScopesOf vm) vm.objects vm'.objects
  source : source' = source

/-- A path was saved that stays what it is when it is set again, with its own name; or there was no
path, and the text got none. -/
def Restorable (cwd' : Option Bytes) (source : SourceName) (name : Bytes) (during : SourceName) :
    Prop :=
  match source.path with
  | none => name = [] ∧ during = source
  | some [] => name = [] ∧ during = source
  | some path => (isPseudo path || isAbsolute path || cwd'.isNone) = true ∧
    source.name = some (baseName path)

/-- The event leaves the local scopes at the addresses in `S`: it neither pushes nor pops one of them,
a frame that returns has scopes of its own or is inline code, and its value taints none of them. -/
def KeepsScopes (sizeof : ObjType → ℕ) (S : Set Ref) (m : Machine) : Event → Prop
  | .data vm' _ => KeepsArrays S m.vm.objects vm'.objects
  | .opReturn => ∀ f, m.vm.currentFrame? = some f →
    let vm' := (m.vm.pop.2.returnedValue sizeof f m.vm.pop.1).1
    KeepsArrays S m.vm.objects vm'.objects ∧
      (vm'.isInline f.closure = true ∨ ∀ r, f.localScopes = some r → r ∉ S)
  | .invokeMarker vm' _ => KeepsArrays S m.vm.objects vm'.objects
  | _ => True

/-! ### What keeps the local scopes -/

section Arrays

variable {sizeof : ObjType → ℕ} {fmt : Printf} {S : Set Ref} {h h' h'' : Heap} {vm vm' : VM} {r : Ref}
  {c : ClosureObj}

theorem KeepsArrays.refl (S : Set Ref) (h : Heap) : KeepsArrays S h h := fun _ _ _ ha => ha

theorem KeepsArrays.trans (hh : KeepsArrays S h h') (hh' : KeepsArrays S h' h'') :
    KeepsArrays S h h'' := fun r hr a ha => hh' r hr a (hh r hr a ha)

theorem KeepsArrays.of_extends (hh : ∀ r o, h.get? r = some o → h'.get? r = some o) :
    KeepsArrays S h h' := fun r _ _ ha => hh r _ ha

/-- Only an object that is not an array was overwritten. -/
theorem KeepsArrays.of_extendsBut {o : Obj} (hh : VM.ExtendsBut r h h') (hr : h.get? r = some o)
    (ho : ∀ a, o ≠ .array a) : KeepsArrays S h h' := by
  intro s _ a ha
  refine hh s _ ?_ ha
  rintro rfl
  exact ho a (Option.some.inj (hr.symm.trans ha))

theorem KeepsArrays.setObj {o o' : Obj} (hr : vm.objects.get? r = some o) (ho : ∀ a, o ≠ .array a) :
    KeepsArrays S vm.objects (vm.setObj r o').objects :=
  .of_extendsBut (VM.extendsBut_setObj vm r o') hr ho

theorem KeepsArrays.alloc (sizeof : ObjType → ℕ) (vm : VM) (o : Obj) :
    KeepsArrays S vm.objects (vm.alloc sizeof o).1.objects :=
  .of_extends fun _ _ ho => VM.alloc_get?_of_some vm sizeof _ ho

theorem KeepsArrays.of_same (hobj : vm'.objects = vm.objects) : KeepsArrays S vm.objects vm'.objects :=
  hobj ▸ .refl S _

theorem KeepsArrays.setCoroutine (vm : VM) (r : Ref) (k : Option Coroutine) :
    KeepsArrays S vm.objects (vm.setCoroutine r k).objects := by
  unfold VM.setCoroutine
  split
  · next c hc => exact .setObj (VM.get?_of_closure? hc) (by rintro _ ⟨⟩)
  · exact .refl S _

theorem KeepsArrays.internString {n : ℕ} {chars : Bytes} {s : Ref}
    (hin : Intern.internString n vm chars = some (vm', s)) : KeepsArrays S vm.objects vm'.objects := by
  rcases Gc.internString_cases hin with rfl | ⟨_, _, rfl⟩
  · exact .refl S _
  · refine .of_extends fun q o ho => ?_
    rw [Heap.get?_cons, Intern.newString, if_neg (Heap.ne_freshRef ho).symm, ho]

theorem KeepsArrays.storeNamed (fmt : Printf) (scope : Option Ref) (vm : VM) (named : List Value) :
    KeepsArrays S vm.objects (VM.storeNamed fmt scope vm named).vm.objects := by
  obtain ⟨h', hsame, hok, herr⟩ := VM.storeNamed_spec fmt scope vm named
  have hkeeps : KeepsArrays S vm.objects h' := fun r _ a ha =>
    (hsame.get?_eq (by rintro t ⟨⟩)).2 ha
  by_cases hnames : vm.NamesAreStrings named
  · rw [hok hnames]
    exact hkeeps
  · rw [herr hnames]
    exact hkeeps

theorem KeepsArrays.activationScopes (sizeof : ObjType → ℕ) (fmt : Printf)
    (hc : vm.closure? r = some c) :
    KeepsArrays S vm.objects (vm.activationScopes sizeof fmt r c).1.objects := by
  unfold VM.activationScopes
  split
  · exact .refl S _
  · obtain ⟨vm₁, scopes, vm₂, hash, halloc₁, halloc₂, -, -, hext, -, -, -⟩ :=
      VM.exists_newScopes sizeof vm hc
    rw [halloc₁]
    dsimp only
    rw [halloc₂]
    dsimp only
    obtain ⟨hens, -, -⟩ := VM.ensureClosureScope_spec sizeof fmt
      (vm₂.setObj scopes (.array (({} : ArrayObj).push (.obj hash)))) r c
    exact .of_extendsBut (hext.trans hens) (VM.get?_of_closure? hc) (by rintro _ ⟨⟩)

theorem foldl_push_objects (vm : VM) (vs : List Value) :
    (vs.foldl VM.push vm).objects = vm.objects := by
  induction vs generalizing vm with
  | nil => rfl
  | cons v vs ih => exact (ih _).trans (VM.push_objects vm v)

theorem KeepsArrays.enterClosure (hc : vm.closure? r = some c) (slots : ℤ) (message : Value)
    (positional named : List Value) (trace : Option CallTrace) : KeepsArrays S vm.objects
      (vm.enterClosure sizeof fmt r c slots message positional named trace).vm.objects := by
  unfold VM.enterClosure
  split_ifs
  · exact .refl S _
  · dsimp only
    have halloc : KeepsArrays S vm.objects _ := KeepsArrays.alloc sizeof vm
      (.array ((positional.map vm.objects.dereferenceValue).foldl ArrayObj.push {}))
    have hc₁ : (vm.alloc sizeof (.array ((positional.map vm.objects.dereferenceValue).foldl
        ArrayObj.push {}))).1.closure? r = some c :=
      VM.closure?_of_get? (VM.alloc_get?_of_some vm sizeof _ (VM.get?_of_closure? hc))
    generalize vm.alloc sizeof _ = p at halloc hc₁ ⊢
    obtain ⟨vm₁, args⟩ := p
    have hscopes := halloc.trans (KeepsArrays.activationScopes sizeof fmt hc₁)
    dsimp only at hscopes ⊢
    generalize vm₁.activationScopes sizeof fmt r c = p at hscopes ⊢
    obtain ⟨vm₂, localScopes, closureScope⟩ := p
    refine (hscopes.trans ?_).trans (.storeNamed _ _ _ _)
    refine .of_same ?_
    rw [VM.push_objects, foldl_push_objects, VM.push_objects]
    rfl

theorem KeepsArrays.resumeClosure (sizeof : ObjType → ℕ) (fmt : Printf) (vm : VM) (r : Ref)
    (k : Coroutine) (slots : ℤ) (hasMessage : Bool) (message : Value) (positional named : List Value)
    (trace : Option CallTrace) : KeepsArrays S vm.objects
      (vm.resumeClosure sizeof fmt r k slots hasMessage message positional named trace).vm.objects := by
  rw [VM.resumeClosure_eq]
  extract_lets plain args vm₁ vm₂ vm₃ vm₄ scope
  have hvm₁ : KeepsArrays S vm.objects (vm₁.setTop slots).objects := .alloc sizeof vm _
  have hvm₄ : KeepsArrays S vm.objects vm₄.objects := by
    refine hvm₁.trans ?_
    change KeepsArrays S _ vm₂.objects
    rw [VM.restoreCoroutine_objects]
    exact .setCoroutine (vm₁.setTop slots) r none
  have hnamed := hvm₄.trans (.storeNamed fmt scope vm₄ named)
  split
  · exact hvm₁
  split
  · exact hvm₁
  split
  · exact hvm₁
  split
  · next heq => rwa [heq] at hnamed
  · next heq =>
    rw [heq] at hnamed
    split
    · exact hnamed.trans (.of_same (VM.push_objects _ _))
    · exact hnamed

theorem KeepsArrays.callClosure (sizeof : ObjType → ℕ) (fmt : Printf) (hc : vm.closure? r = some c)
    (argCount : ℕ) (hasMessage : Bool) (trace : Option CallTrace) : KeepsArrays S vm.objects
      (vm.callClosure sizeof fmt r c argCount hasMessage trace).vm.objects := by
  unfold VM.callClosure
  split
  · exact .refl S _
  · dsimp only
    split
    · exact .of_same (VM.push_objects _ _)
    split
    · exact .resumeClosure _ _ _ _ _ _ _ _ _ _ _
    · exact .enterClosure hc _ _ _ _ _

theorem KeepsArrays.invokeContinuation (sizeof : ObjType → ℕ) (vm : VM) (k : ContinuationObj)
    (argCount : ℕ) (hasMessage : Bool) (trace : CallTrace) : KeepsArrays S vm.objects
      (vm.invokeContinuation sizeof k argCount hasMessage trace).objects := by
  unfold VM.invokeContinuation
  have halloc : KeepsArrays S vm.objects _ := .alloc sizeof vm
    (.continuation (vm.returnContinuation argCount hasMessage trace))
  dsimp only
  generalize vm.alloc sizeof _ = p at halloc ⊢
  obtain ⟨vm₁, ret⟩ := p
  dsimp only at halloc ⊢
  have hclear : ∀ owner, KeepsArrays S vm.objects (vm₁.clearCoroutineState owner).objects :=
    fun owner => halloc.trans (.setCoroutine _ _ _)
  rw [VM.push_objects]
  cases k.coroutineOwner with
  | none =>
    dsimp only
    split
    · refine halloc.trans fun r _ a ha => ?_
      exact VM.alloc_get?_of_some (VM.setSlot _ _ _) sizeof _ ha
    · exact halloc
  | some owner =>
    dsimp only
    split
    · refine (hclear owner).trans fun r _ a ha => ?_
      exact VM.alloc_get?_of_some (VM.setSlot _ _ _) sizeof _ ha
    · exact hclear owner

theorem KeepsArrays.inlineReturn (vm : VM) : KeepsArrays S vm.objects vm.inlineReturn.objects := by
  unfold VM.inlineReturn
  have hpop : KeepsArrays S vm.objects vm.pop.2.objects := .of_same (VM.pop_objects vm)
  generalize vm.pop = p at hpop ⊢
  obtain ⟨result, vm₁⟩ := p
  dsimp only at hpop ⊢
  split
  · exact hpop
  · rw [VM.push_objects]
    exact hpop.trans (.setCoroutine vm₁ _ none)

theorem KeepsArrays.yield (vm : VM) : KeepsArrays S vm.objects vm.yield.vm.objects := by
  unfold VM.yield
  have hpop : KeepsArrays S vm.objects vm.pop.2.objects := .of_same (VM.pop_objects vm)
  generalize vm.pop = p at hpop ⊢
  obtain ⟨result, vm₁⟩ := p
  dsimp only at hpop ⊢
  split
  · exact hpop
  · next root _ =>
    have hclear := hpop.trans (.setCoroutine vm₁ root.closure none)
    split
    · exact hclear
    · change KeepsArrays S vm.objects (VM.push _ _).objects
      rw [VM.push_objects]
      exact hclear.trans (.setCoroutine (vm₁.clearCoroutineState root.closure) _ _)

theorem KeepsArrays.callcc (sizeof : ObjType → ℕ) (fmt : Printf) (vm : VM) (hasArg : Bool)
    (text : Bytes) (line : ℤ) :
    KeepsArrays S vm.objects (vm.callcc sizeof fmt hasArg text line).vm.objects := by
  unfold VM.callcc
  have hpop : KeepsArrays S vm.objects (if hasArg then vm.pop else (Value.null, vm)).2.objects := by
    split
    · exact .of_same (VM.pop_objects vm)
    · exact .refl S _
  generalize (if hasArg then vm.pop else (Value.null, vm)) = p at hpop ⊢
  obtain ⟨handler, vm₁⟩ := p
  dsimp only at hpop ⊢
  split
  · exact hpop
  · next root _ =>
    have hnew := hpop.trans (.alloc sizeof vm₁
      (.continuation (vm₁.callccContinuation root.closure)))
    generalize vm₁.alloc sizeof _ = p at hnew ⊢
    obtain ⟨vm₂, continuation⟩ := p
    dsimp only at hnew ⊢
    have hclear := hnew.trans (.setCoroutine vm₂ root.closure none)
    split
    · exact hclear
    · have hsave := hclear.trans (.setCoroutine (vm₂.clearCoroutineState root.closure) root.closure
        (some ((vm₂.clearCoroutineState root.closure).captureCoroutine vm₁.rootIndex root.slots
          true)))
      generalize VM.setCoroutine _ _ (some _) = vm₃ at hsave ⊢
      split
      · next r =>
        split
        · next c hc =>
          have hc' : ((VM.push (VM.setTop (VM.trimTryHandlers { vm₃ with
              frames := vm₃.frames.take vm₁.rootIndex } vm₁.rootIndex) root.slots) (.obj r)).push
              (.obj continuation)).closure? r = some c := by
            rw [VM.push_closure?, VM.push_closure?]
            exact hc
          have hcall := hsave.trans ((KeepsArrays.of_same (by
            rw [VM.push_objects, VM.push_objects]; rfl)).trans
            (.callClosure sizeof fmt hc' 1 false (some {})))
          split
          · next heq => rwa [heq] at hcall
          · next vm₄ heq =>
            rw [heq] at hcall
            split
            · next vm₅ call hin =>
              have hintern : KeepsArrays S vm₄.objects vm₅.objects := .internString hin
              exact hcall.trans hintern
            · exact hcall
        · exact hsave.trans (.of_same (VM.push_objects _ _))
      · exact hsave.trans (.of_same (VM.push_objects _ _))

/-- A return drops no scopes but those of the frame. -/
theorem KeepsArrays.dropLeakedScopes (vm : VM) (f : CallFrame)
    (hf : vm.isInline f.closure = true ∨ ∀ r, f.localScopes = some r → r ∉ S) :
    KeepsArrays S vm.objects (vm.dropLeakedScopes f).objects := by
  unfold VM.dropLeakedScopes
  split_ifs with hinline
  · exact .refl S _
  · split
    · next r hr =>
      have hout : r ∉ S := (hf.resolve_left hinline) r hr
      split
      · split_ifs
        · intro s hs a ha
          have hne : r ≠ s := fun heq => hout (heq ▸ hs)
          exact (Heap.get?_set_ne hne).trans ha
        · exact .refl S _
      · exact .refl S _
    · exact .refl S _

theorem KeepsArrays.opReturn (vm : VM) (hreturns : ∀ f, vm.currentFrame? = some f →
      KeepsArrays S vm.objects (vm.pop.2.returnedValue sizeof f vm.pop.1).1.objects ∧
      ((vm.pop.2.returnedValue sizeof f vm.pop.1).1.isInline f.closure = true ∨
        ∀ r, f.localScopes = some r → r ∉ S)) :
    KeepsArrays S vm.objects (vm.opReturn sizeof).objects := by
  unfold VM.opReturn
  have hpop : KeepsArrays S vm.objects vm.pop.2.objects := .of_same (VM.pop_objects vm)
  have hframes : vm.pop.2.currentFrame? = vm.currentFrame? := by
    rw [VM.currentFrame?, VM.pop_frames]
    rfl
  rw [← hframes] at hreturns
  generalize vm.pop = p at hpop hreturns ⊢
  obtain ⟨result, vm₁⟩ := p
  dsimp only at hpop hreturns ⊢
  split
  · exact hpop
  · next f hf =>
    obtain ⟨hvalue, hscopes⟩ := hreturns f hf
    generalize vm₁.returnedValue sizeof f result = p at hvalue hscopes ⊢
    obtain ⟨vm₂, result'⟩ := p
    dsimp only at hvalue hscopes ⊢
    have hdrop := hvalue.trans (.dropLeakedScopes vm₂ f hscopes)
    split
    · split
      · rw [VM.push_objects]
        exact hdrop
      · exact hdrop
    · rw [VM.push_objects]
      exact hdrop

end Arrays

section Scopes

variable {sizeof : ObjType → ℕ} {fmt : Printf} {S : Set Ref} {m : Machine} {ev : Event}

/-- The machine of a state. -/
def State.vm : State → VM
  | .running m => m.vm
  | .ended _ _ vm => vm

theorem finish_objects (m : Machine) (result : SlpResult) (value : Option Value) :
    (m.finish result value).vm.objects = m.vm.objects := by
  unfold Machine.finish
  split
  · rfl
  · split <;> rfl

theorem settle_objects (m : Machine) (atZero : Bool) (value : Value) :
    (m.settle atZero value).vm.objects = m.vm.objects := by
  unfold Machine.settle
  split
  · exact finish_objects m _ _
  · rfl

theorem ofOutcome_objects (m : Machine) (o : Outcome) :
    (m.ofOutcome o).vm.objects = o.vm.objects := by
  unfold Machine.ofOutcome
  split
  · rfl
  · exact finish_objects _ _ _

theorem ignore_objects (m : Machine) (total : ℕ) : (m.ignore total).vm.objects = m.vm.objects :=
  (finish_objects _ _ _).trans (VM.push_objects _ _)

/-- A callee that is a closure is one in the heap. -/
theorem closure?_of_callee? {vm : VM} {total : ℕ} {r : Ref} {c : ClosureObj}
    (h : vm.callee? total = some (r, .closure c)) : vm.closure? r = some c := by
  unfold VM.callee? at h
  split at h
  · next r' _ =>
    cases ho : vm.objects.get? r' with
    | none => rw [ho] at h; cases h
    | some o =>
      rw [ho] at h
      cases h
      exact VM.closure?_of_get? ho
  · cases h

theorem KeepsArrays.callVm (m : Machine) (argCount : ℕ) (hasMessage : Bool) (caller : Caller) :
    KeepsArrays S m.vm.objects (m.callVm sizeof fmt argCount hasMessage caller).vm.objects := by
  unfold Machine.callVm
  dsimp only
  split
  · next r c hcallee =>
    have hcall : KeepsArrays S m.vm.objects _ :=
      .callClosure sizeof fmt (closure?_of_callee? hcallee) argCount hasMessage (some {})
    split
    · next heq => rwa [heq] at hcall
    · next heq =>
      rw [heq] at hcall
      rw [finish_objects]
      exact hcall
  · exact .refl S _
  · rw [finish_objects]
    exact .invokeContinuation _ _ _ _ _ _
  · rw [ignore_objects]
    exact .refl S _

theorem KeepsArrays.callMarked (m : Machine) (argCount : ℕ) :
    KeepsArrays S m.vm.objects (m.callMarked sizeof fmt argCount).vm.objects := by
  unfold Machine.callMarked
  dsimp only
  split
  · next r c hcallee =>
    have hcall : KeepsArrays S m.vm.objects _ :=
      .callClosure sizeof fmt (closure?_of_callee? hcallee) argCount true (some {})
    split
    · next heq =>
      rw [heq] at hcall
      rw [finish_objects]
      exact hcall
    · next heq =>
      rw [heq] at hcall
      rw [finish_objects]
      exact hcall
  · exact .refl S _
  · rw [finish_objects]
    exact .invokeContinuation _ _ _ _ _ _
  · rw [ignore_objects]
    exact .refl S _

/-- **The local scopes stay** at an event that leaves them. -/
theorem KeepsArrays.step (hlegal : m.Legal ev) (hkeeps : KeepsScopes sizeof S m ev) :
    KeepsArrays S m.vm.objects (m.step sizeof fmt ev).vm.objects := by
  cases ev with
  | data vm' i => exact hkeeps
  | call r c argCount hasMessage trace =>
    refine .trans ?_ (.of_same (ofOutcome_objects m _))
    exact .callClosure sizeof fmt hlegal.2 argCount hasMessage trace
  | invoke k argCount hasMessage trace => exact .invokeContinuation _ _ _ _ _ _
  | pushHandler catchIp =>
    refine .of_same ?_
    change (m.vm.pushHandler catchIp).objects = _
    unfold VM.pushHandler
    split <;> rfl
  | popHandler => exact .refl S _
  | throw =>
    refine .of_same ?_
    simp only [Machine.step]
    split
    · exact (VM.push_objects _ _).trans (VM.pop_objects m.vm)
    · rw [finish_objects]
      exact VM.pop_objects m.vm
  | opReturn =>
    have hret := KeepsArrays.opReturn m.vm hkeeps
    simp only [Machine.step]
    split
    · exact hret
    split
    · rw [finish_objects]
      exact hret
    · rw [settle_objects]
      exact hret
  | inlineReturn =>
    simp only [Machine.step]
    rw [settle_objects]
    exact .inlineReturn m.vm
  | yield =>
    have hyield : KeepsArrays S m.vm.objects m.vm.yield.vm.objects := .yield m.vm
    simp only [Machine.step]
    split
    · next heq =>
      rw [heq] at hyield
      rw [settle_objects]
      exact hyield
    · next heq =>
      rw [heq] at hyield
      rw [finish_objects]
      exact hyield
  | callcc hasArg text line =>
    refine .trans ?_ (.of_same (ofOutcome_objects m _))
    exact .callcc sizeof fmt m.vm hasArg text line
  | abort =>
    refine .of_same ?_
    simp only [Machine.step]
    split
    · rw [finish_objects]
      exact VM.push_objects _ _
    · rw [settle_objects]
      exact VM.push_objects _ _
  | done => exact .of_same (finish_objects m _ _)
  | halt => exact .of_same (finish_objects m _ _)
  | error => exact .of_same (finish_objects m _ _)
  | callback argCount hasMessage caller => exact .callVm m argCount hasMessage caller
  | nativeReturn v =>
    refine .of_same ?_
    simp only [Machine.step]
    rw [finish_objects]
    exact VM.push_objects _ _
  | invokeMarker vm' argCount =>
    refine hkeeps.trans ?_
    exact .callMarked { m with vm := vm' } argCount

/-- **The local scopes stay** in a run whose events leave them. -/
theorem Run.keepsArrays {ok : Machine → Event → Prop}
    (hok : ∀ m ev, ok m ev → KeepsScopes sizeof S m ev) {s s' : State}
    (hrun : Run sizeof fmt ok s s') : KeepsArrays S s.vm.objects s'.vm.objects := by
  induction hrun with
  | start => exact .refl S _
  | step _ ev _ hlegal hev ih => exact ih.trans (.step hlegal (hok _ ev hev))

end Scopes

/-! ### The caller's view -/

section Caller

variable {sizeof : ObjType → ℕ} {fmt : Printf} {separator : UInt8} {cwd cwd' : Option Bytes}
  {S : Set Ref} {vm vm' : VM} {source source' during : SourceName} {name : Bytes}
  {result : SlpResult} {out : Value}

/-- The stack, the frames, the handlers and the local scopes are what they were. -/
structure Leaves (S : Set Ref) (vm vm' : VM) : Prop where
  stack : vm'.stack = vm.stack
  marks : SameMarks vm vm'
  arrays : KeepsArrays S vm.objects vm'.objects

theorem Leaves.refl (S : Set Ref) (vm : VM) : Leaves S vm vm := ⟨rfl, .refl vm, .refl S _⟩

theorem Leaves.trans {vm'' : VM} (h : Leaves S vm vm') (h' : Leaves S vm' vm'') : Leaves S vm vm'' :=
  ⟨h'.stack.trans h.stack, h.marks.trans h'.marks, h.arrays.trans h'.arrays⟩

theorem Leaves.internString {n : ℕ} {chars : Bytes} {r : Ref}
    (hin : Intern.internString n vm chars = some (vm', r)) : Leaves S vm vm' := by
  refine ⟨?_, ?_, .internString hin⟩
  · rcases Gc.internString_cases hin with rfl | ⟨_, _, rfl⟩ <;> rfl
  · rcases Gc.internString_cases hin with rfl | ⟨_, _, rfl⟩ <;> exact ⟨rfl, rfl⟩

theorem Compiles.leaves (h : Compiles vm vm') : Leaves S vm vm' :=
  ⟨h.stack, h.marks, .of_extends h.objects⟩

theorem setScript_leaves (sizeof : ObjType → ℕ) (fmt : Printf) (vm : VM) (name : Bytes) :
    Leaves S vm (setScript sizeof fmt vm name) := by
  unfold setScript
  split
  · exact .refl S vm
  · split
    · exact .refl S vm
    · next vm₁ key hkey =>
      have h₁ : Leaves S vm vm₁ := .internString hkey
      split
      · exact h₁
      · next vm₂ value hvalue =>
        have h₂ : Leaves S vm vm₂ := h₁.trans (.internString hvalue)
        split
        · next t ht => exact h₂.trans ⟨rfl, ⟨rfl, rfl⟩, .setObj ht (by rintro _ ⟨⟩)⟩
        · exact h₂

theorem setSourceName_leaves (sizeof : ObjType → ℕ) (fmt : Printf) (separator : UInt8)
    (cwd : Option Bytes) (vm : VM) (name : Bytes) :
    Leaves S vm (setSourceName sizeof fmt separator cwd vm name).1 := by
  unfold setSourceName
  split
  · exact .refl S vm
  · exact setScript_leaves sizeof fmt vm _

theorem startEval_leaves (sizeof : ObjType → ℕ) (fmt : Printf) (separator : UInt8)
    (cwd : Option Bytes) (vm : VM) (source : SourceName) (name : Bytes) :
    Leaves S vm (startEval sizeof fmt separator cwd vm source name).1 := by
  unfold startEval
  split
  · exact .refl S vm
  · exact setSourceName_leaves sizeof fmt separator cwd vm name

theorem restoreSource_leaves (sizeof : ObjType → ℕ) (fmt : Printf) (separator : UInt8)
    (cwd' : Option Bytes) (source : SourceName) (vm : VM) (during : SourceName) :
    Leaves S vm (restoreSource sizeof fmt separator cwd' source vm during).1 := by
  unfold restoreSource
  split
  · exact .refl S vm
  · exact .refl S vm
  · exact setSourceName_leaves sizeof fmt separator cwd' vm _

/-- A path that stays what it is is set back. -/
theorem restoreSource_source (sizeof : ObjType → ℕ) (fmt : Printf) (separator : UInt8) (vm : VM)
    (h : Restorable cwd' source name during) :
    (restoreSource sizeof fmt separator cwd' source vm during).2 = source := by
  obtain ⟨path, base⟩ := source
  unfold Restorable at h
  unfold restoreSource
  split at h
  · next hpath =>
    dsimp only at hpath
    subst hpath
    exact h.2
  · next hpath =>
    dsimp only at hpath
    subst hpath
    exact h.2
  · next path' hne hpath =>
    dsimp only at hpath h
    subst hpath
    obtain ⟨hstays, rfl⟩ := h
    have hpath : sourcePath separator cwd' path' = path' := by
      unfold sourcePath
      split
      · rfl
      · next hfile =>
        cases cwd' with
        | none => rfl
        | some dir => simp_all
    cases path' with
    | nil => exact absurd rfl hne
    | cons c cs =>
      simp only [setSourceName, hpath]
      rfl

/-- The evaluation starts above the frames and the handlers of the caller. -/
theorem callVm_pushInline_guarded (sizeof : ObjType → ℕ) (fmt : Printf) {vm₁ : VM} (function : Ref)
    (f : FunctionObj) (hmarks : SameMarks vm vm₁) (hroom : vm₁.stack.length < stackMax) :
    ∃ target, (Machine.callVm sizeof fmt ⟨pushInline sizeof vm₁ function f, []⟩ 0 false
      .host).Guarded vm target := by
  unfold pushInline
  have hget := VM.alloc_get?_self vm₁ sizeof (.closure
    { function, upvalues := List.replicate f.upvalueCount none, isInline := true })
  have halloc := hmarks.trans (alloc_same sizeof vm₁ (.closure
    { function, upvalues := List.replicate f.upvalueCount none, isInline := true }))
  have hstack : (vm₁.alloc sizeof (.closure
    { function, upvalues := List.replicate f.upvalueCount none, isInline := true })).1.stack =
      vm₁.stack := rfl
  generalize vm₁.alloc sizeof _ = p at hget halloc hstack ⊢
  obtain ⟨vm₂, closure⟩ := p
  dsimp only at hget halloc hstack ⊢
  rw [← hstack] at hroom
  have hpush := halloc.trans (push_same vm₂ (.obj closure))
  have hcallee : (vm₂.push (.obj closure)).callee? (VM.totalArgs 0 false) = some (closure, .closure
      { function, upvalues := List.replicate f.upvalueCount none, isInline := true }) := by
    have hpeek : (vm₂.push (.obj closure)).peek (VM.totalArgs 0 false) = .obj closure :=
      peek_zero (getLast?_push hroom)
    simp only [VM.callee?, hpeek, VM.push_objects, hget, Option.map_some]
  unfold Machine.callVm
  dsimp only
  rw [hcallee]
  dsimp only
  have habove := hpush.above.trans (callClosure_above sizeof fmt (vm₂.push (.obj closure)) closure
    { function, upvalues := List.replicate f.upvalueCount none, isInline := true } 0 false (some {}))
  split
  · next vm₃ heq =>
    rw [heq] at habove
    exact ⟨_, habove, [], _, rfl, ⟨rfl, rfl, congrArg List.length hpush.frames⟩, by simp⟩
  · next heq =>
    rw [heq] at habove
    exact ⟨none, habove⟩

end Caller

/-! ### A text that ends and one that returns -/

section Example

/-- A script with one local scope evaluates a text. -/
def evalVM : VM where
  stack := VM.emptySlots 1 4
  frames := [{ closure := 1, slots := 0, localScopes := some 5 }]
  objects := [⟨6, false, .hash {}⟩, ⟨5, false, .array (({} : ArrayObj).push (.obj 6))⟩,
    ⟨4, false, .array {}⟩, ⟨1, false, .closure { function := 0 }⟩, ⟨0, false, .function {}⟩]

/-- The source of the script, and the one of the text. -/
def scriptSource : SourceName := ⟨some (ascii "/home/s.sl"), some (ascii "s.sl")⟩

@[inherit_doc scriptSource]
def evalSource : SourceName := ⟨some (ascii "/home/eval"), some (ascii "eval")⟩

/-- The function of the text. -/
def compiledVM : VM := (evalVM.alloc (fun _ => 16) (.function {})).1

/-- The text is about to start. -/
def evalMachine : Machine :=
  startOf (pushInline (fun _ => 16) compiledVM 7 {}) 8 { function := 7, isInline := true }

theorem callVm_evalMachine : Machine.callVm (fun _ => 16) VM.noPrintf
    ⟨pushInline (fun _ => 16) compiledVM 7 {}, []⟩ 0 false .host = .running evalMachine :=
  callVm_startOf (by decide) (by decide)

theorem evalMachine_wellFormed : WellFormed evalMachine.vm :=
  wellFormed_of (by decide) (by decide) (by decide)

theorem inLoop_evalMachine : evalMachine.InLoop :=
  ⟨by decide, _, _, rfl, rfl⟩

theorem compiles_evalVM : Compiles (startEval (fun _ => 16) VM.noPrintf 47 (some (ascii "/home"))
    evalVM scriptSource (ascii "eval")).1 compiledVM :=
  ⟨rfl, ⟨rfl, rfl⟩, fun _ _ ho => VM.alloc_get?_of_some evalVM (fun _ => 16) _ ho⟩

/-- The evaluation, if its run ends so. -/
theorem evalInline_evalVM {ok : Machine → Event → Prop} {value : Option Value} {vm₂ : VM}
    (hrun : Run (fun _ => 16) VM.noPrintf ok (.running evalMachine) (.ended .ok value vm₂)) :
    ∃ out vm' source', EvalInline (fun _ => 16) VM.noPrintf 47 ok (some (ascii "/home"))
        (some (ascii "/home")) evalVM scriptSource (ascii "eval") evalSource .ok out vm' source' ∧
      vm'.frames = vm₂.frames.take 1 := by
  rw [← callVm_evalMachine] at hrun
  have hleaves := restoreSource_leaves (S := ∅) (fun _ => 16) VM.noPrintf 47 (some (ascii "/home"))
    scriptSource (vm₂.restoreMarks compiledVM.top 1 0) evalSource
  exact ⟨_, _, _, .called compiles_evalVM (by decide) hrun, hleaves.marks.frames⟩

end Example

end Nested

end Slp
