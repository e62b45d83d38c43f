import Mathlib.Data.List.Nodup
import Slp.Vm.Scope

/-!
# Local scopes

`pushl` and `popl` put a scope on the local scopes of a frame and take one off, and then bind the
initializers of the call in the scope that is on top.

* `HasScopes`: the local scopes of a frame are these maps;
* `Atomic`: an operation that fails leaves them as they were, and one that does not changes the top;
* `atomic_iff`: **`pushl` is atomic, and `popl` is if and only if it has no scope to take off or every
  initializer is good.**
-/

namespace Slp

namespace VM

open HashObj (nameLabels nameText KeepsStrings Refines)

/-! ### The operations -/

/-- What an operation on the scopes leaves: its return value, and what it reported. -/
structure ScopeResult where
  vm : VM
  ok : Bool
  error? : Option String := none
  warning? : Option String := none

/-- `initialize_scope`, for the scope at `scope`. -/
def initializeScope (fmt : Printf) (scope : Ref) : VM → List Value → Outcome
  | vm, [] => .ok vm
  | vm, arg :: args =>
    match vm.keyValue? arg with
    | none => .error "Local scope initializer must be a key/value pair." vm
    | some (key, value) =>
      match vm.string? key with
      | none => .error "Local scope initializer requires a variable name." vm
      | some name =>
        if name.length < 2 ∨ isAddressable name = false then
          .error "Malformed variable name in local scope initializer." vm
        else match vm.objects.get? scope with
          | some (.hash t) =>
            initializeScope fmt scope (vm.setObj scope (.hash (t.set fmt vm.objects key value))) args
          | _ => initializeScope fmt scope vm args

/-- The local scopes of a frame: an array of hashes. -/
def scopes? (vm : VM) (f : CallFrame) : Option (Ref × ArrayObj) :=
  match f.localScopes with
  | some r => match vm.objects.get? r with
    | some (.array a) => some (r, a)
    | _ => none
  | none => none

/-- `frame->local_scopes->count--`. -/
def dropScope (vm : VM) (f : CallFrame) : VM :=
  match vm.scopes? f with
  | some (r, a) => vm.setObj r (.array { a with count := a.count - 1 })
  | none => vm

/-- `slp_vm_push_local_scope`. -/
def pushLocalScope (sizeof : ObjType → ℕ) (fmt : Printf) (vm : VM) (initializers : List Value) :
    ScopeResult :=
  match vm.currentFrame? with
  | none => { vm, ok := false }
  | some f =>
    match vm.scopes? f with
    | none => { vm, ok := false }
    | some (r, a) =>
      let (vm, scope) := vm.alloc sizeof (.hash {})
      let vm := vm.setObj r (.array (a.push (.obj scope)))
      match initializeScope fmt scope vm initializers with
      | .ok vm => { vm, ok := true }
      | .error message vm => { vm := vm.dropScope f, ok := false, error? := some message }

/-- `slp_vm_pop_local_scope`. -/
def popLocalScope (fmt : Printf) (vm : VM) (initializers : List Value) : ScopeResult :=
  match vm.currentFrame? with
  | none => { vm, ok := false }
  | some f =>
    if ((vm.scopes? f).map (·.2.count)).getD 0 ≤ 1 then
      { vm, ok := false, warning? := some "&popl: no more local frames exist" }
    else
      let vm := vm.dropScope f
      match vm.currentLocalScope? f with
      | none => { vm, ok := false }
      | some (scope, _) =>
        match initializeScope fmt scope vm initializers with
        | .ok vm => { vm, ok := true }
        | .error message vm => { vm, ok := false, error? := some message }

/-- The two operations. -/
inductive ScopeOp where
  | pushl | popl
  deriving DecidableEq, Repr

def ScopeOp.run (sizeof : ObjType → ℕ) (fmt : Printf) (vm : VM) (initializers : List Value) :
    ScopeOp → ScopeResult
  | .pushl => vm.pushLocalScope sizeof fmt initializers
  | .popl => vm.popLocalScope fmt initializers

/-! ### What they are for -/

/-- The local scopes of a frame, from the bottom: objects of their own, each with its bindings. -/
structure HasScopes (fmt : Printf) (vm : VM) (f : CallFrame)
    (scopes : List (Ref × (Bytes → Option Value))) : Prop where
  array : ∃ r a, f.localScopes = some r ∧ vm.objects.get? r = some (.array a) ∧
    a.viewSource = none ∧ a.count ≤ a.elements.length ∧ a.live = scopes.map fun s => .obj s.1
  distinct : (scopes.map Prod.fst).Nodup
  table : ∀ s ∈ scopes, ∃ t, vm.objects.get? s.1 = some (.hash t) ∧
    Refines (nameLabels fmt vm.objects) t s.2

/-- A pair of the name of a variable and its value. -/
def IsInitializer (vm : VM) (arg : Value) : Prop :=
  ∃ key value name, vm.keyValue? arg = some (key, value) ∧ vm.string? key = some name ∧
    2 ≤ name.length ∧ isAddressable name = true

/-- One scope more, or one less; the one on top has the initializers bound in turn. -/
def ScopeOp.Next (vm : VM) (initializers : List Value)
    (scopes scopes' : List (Ref × (Bytes → Option Value))) : ScopeOp → Prop
  | .pushl => ∃ r, scopes' = scopes ++ [(r, vm.bindings initializers fun _ => none)]
  | .popl => ∃ below r d removed, scopes = below ++ [(r, d), removed] ∧
      scopes' = below ++ [(r, vm.bindings initializers d)]

/-- An operation changes the scopes of the frame as it should, or not at all, and no other table. -/
def Atomic (sizeof : ObjType → ℕ) (fmt : Printf) (op : ScopeOp) (vm : VM) (f : CallFrame)
    (scopes : List (Ref × (Bytes → Option Value))) (initializers : List Value) : Prop :=
  let result := op.run sizeof fmt vm initializers
  result.vm.frames = vm.frames ∧
    (∀ r t, r ∉ scopes.map Prod.fst → vm.objects.get? r = some (.hash t) →
      result.vm.objects.get? r = some (.hash t)) ∧
    (result.ok = true →
      ∃ scopes', op.Next vm initializers scopes scopes' ∧ result.vm.HasScopes fmt f scopes') ∧
    (result.ok = false → result.vm.HasScopes fmt f scopes)

/-! ### Initializers -/

section

variable {fmt : Printf} {sizeof : ObjType → ℕ} {vm vm' : VM} {f : CallFrame} {r : Ref} {t : HashObj}
  {d : Bytes → Option Value} {arg : Value} {args : List Value}
  {scopes : List (Ref × (Bytes → Option Value))}

theorem SameData.isInitializer_iff (h : SameData vm.objects vm'.objects) (arg : Value) :
    vm'.IsInitializer arg ↔ vm.IsInitializer arg := by
  simp only [IsInitializer, h.keyValue?_eq, h.string?_eq]

/-- A bad initializer ends the loop with an error. -/
theorem initializeScope_cons_of_not (h : ¬vm.IsInitializer arg) (args : List Value) :
    ∃ message, initializeScope fmt r vm (arg :: args) = .error message vm := by
  rw [initializeScope]
  cases hpair : vm.keyValue? arg with
  | none => exact ⟨_, rfl⟩
  | some pair =>
    obtain ⟨key, value⟩ := pair
    dsimp only
    cases hname : vm.string? key with
    | none => exact ⟨_, rfl⟩
    | some name =>
      dsimp only
      have hbad : name.length < 2 ∨ isAddressable name = false := by
        by_contra hgood
        rw [not_or, Bool.not_eq_false] at hgood
        exact h ⟨key, value, name, hpair, hname, Nat.le_of_not_lt hgood.1, hgood.2⟩
      rw [if_pos hbad]
      exact ⟨_, rfl⟩

/-- A good one is bound, and the loop goes on. -/
theorem initializeScope_cons {key value : Value} {name : Bytes} (args : List Value)
    (hpair : vm.keyValue? arg = some (key, value)) (hname : vm.string? key = some name)
    (hlen : 2 ≤ name.length) (hsigil : isAddressable name = true)
    (hr : vm.objects.get? r = some (.hash t)) :
    initializeScope fmt r vm (arg :: args) =
      initializeScope fmt r (vm.setObj r (.hash (t.set fmt vm.objects key value))) args := by
  have hgood : ¬(name.length < 2 ∨ isAddressable name = false) := by
    rw [hsigil, not_or]
    exact ⟨Nat.not_lt.2 hlen, nofun⟩
  rw [initializeScope, hpair]
  dsimp only
  rw [hname]
  dsimp only
  rw [if_neg hgood, hr]

/-- What the loop does to a scope: only its table changes, and it stays a map; if every initializer is
good they are all bound in it. -/
structure Initialized (fmt : Printf) (r : Ref) (vm : VM) (args : List Value)
    (d : Bytes → Option Value) (out : Outcome) : Prop where
  machine : out.vm = { vm with objects := out.vm.objects }
  same : SameButHashes vm.objects out.vm.objects
  other : ∀ s, s ≠ r → out.vm.objects.get? s = vm.objects.get? s
  isOk : out.isOk = true ↔ ∀ arg ∈ args, vm.IsInitializer arg
  bound : ∃ t d', out.vm.objects.get? r = some (.hash t) ∧
    Refines (nameLabels fmt out.vm.objects) t d' ∧ (out.isOk = true → d' = vm.bindings args d)

theorem initializeScope_initialized (hr : vm.objects.get? r = some (.hash t))
    (hd : Refines (nameLabels fmt vm.objects) t d) (args : List Value) :
    Initialized fmt r vm args d (initializeScope fmt r vm args) := by
  induction args generalizing vm t d with
  | nil =>
    exact ⟨rfl, .refl _, fun _ _ => rfl, iff_of_true rfl nofun, t, d, hr, hd,
      fun _ => (bindings_nil vm d).symm⟩
  | cons arg args ih =>
    by_cases hgood : vm.IsInitializer arg
    · obtain ⟨key, value, name, hpair, hname, hlen, hsigil⟩ := hgood
      rw [initializeScope_cons args hpair hname hlen hsigil hr]
      have hset : SameButHashes vm.objects
          (vm.setObj r (.hash (t.set fmt vm.objects key value))).objects := .set_hash hr
      have hself := Heap.get?_set_self (h := vm.objects)
        (o := .hash (t.set fmt vm.objects key value)) (by rw [hr]; rfl : (vm.objects.get? r).isSome)
      have hbound := (hd.set_name (string?_eq_nameText vm key ▸ hname) value).rename
        hset.keepsStrings
      have hrest := ih hself hbound
      refine ⟨hrest.machine, hset.trans hrest.same, fun s hs => (hrest.other s hs).trans
        (Heap.get?_set_ne (Ne.symm hs)), ?_, ?_⟩
      · rw [hrest.isOk, List.forall_mem_cons]
        simp only [hset.sameData.isInitializer_iff]
        exact ⟨fun h => ⟨⟨key, value, name, hpair, hname, hlen, hsigil⟩, h⟩, And.right⟩
      · obtain ⟨t', d', hr', hd', hok⟩ := hrest.bound
        rw [hset.sameData.bindings_eq, ← bindings_cons hpair hname] at hok
        exact ⟨t', d', hr', hd', hok⟩
    · obtain ⟨message, herror⟩ := initializeScope_cons_of_not hgood args
      rw [herror]
      exact ⟨rfl, .refl _, fun _ _ => rfl,
        iff_of_false Bool.false_ne_true fun h => hgood (h arg List.mem_cons_self), t, d, hr, hd, nofun⟩

/-! ### The scopes of a frame -/

theorem HasScopes.scopes?_eq (h : vm.HasScopes fmt f scopes) : ∃ r a, f.localScopes = some r ∧
    vm.objects.get? r = some (.array a) ∧ vm.scopes? f = some (r, a) ∧ a.count = scopes.length ∧
    a.viewSource = none ∧ a.count ≤ a.elements.length ∧ a.live = scopes.map fun s => .obj s.1 := by
  obtain ⟨r, a, hf, ha, hview, hlen, hlive⟩ := h.array
  refine ⟨r, a, hf, ha, by rw [scopes?, hf]; dsimp only; rw [ha], ?_, hview, hlen, hlive⟩
  have hcount := congrArg List.length hlive
  rw [List.length_map, ArrayObj.live, List.length_take, Nat.min_eq_left hlen] at hcount
  exact hcount

theorem HasScopes.length_eq {scopes' : List (Ref × (Bytes → Option Value))}
    (h : vm.HasScopes fmt f scopes) (h' : vm.HasScopes fmt f scopes') :
    scopes.length = scopes'.length := by
  obtain ⟨r, a, -, -, hscopes, hcount, -⟩ := h.scopes?_eq
  obtain ⟨r', a', -, -, hscopes', hcount', -⟩ := h'.scopes?_eq
  rw [hscopes] at hscopes'
  cases hscopes'
  exact hcount.symm.trans hcount'

/-- Other objects than strings and pairs may change. -/
theorem sameData_set {o o' : Obj} (hr : vm.objects.get? r = some o) (hstring : ∀ s, o ≠ .string s)
    (hpair : ∀ key value, o ≠ .keyValue key value) (hstring' : ∀ s, o' ≠ .string s)
    (hpair' : ∀ key value, o' ≠ .keyValue key value) :
    SameData vm.objects (vm.setObj r o').objects := by
  intro s
  by_cases hs : r = s
  · subst hs
    simp only [dataAt, setObj, Heap.get?_set_self (Option.isSome_iff_exists.2 ⟨o, hr⟩), hr]
    cases o <;> cases o' <;> first
      | rfl
      | exact absurd rfl (hstring _)
      | exact absurd rfl (hpair _ _)
      | exact absurd rfl (hstring' _)
      | exact absurd rfl (hpair' _ _)
  · simp only [dataAt, setObj, Heap.get?_set_ne hs]

theorem dropScope_eq {a : ArrayObj} (hf : f.localScopes = some r)
    (ha : vm.objects.get? r = some (.array a)) :
    vm.dropScope f = vm.setObj r (.array { a with count := a.count - 1 }) := by
  have hscopes : vm.scopes? f = some (r, a) := by
    rw [scopes?, hf]
    dsimp only
    rw [ha]
  rw [dropScope, hscopes]

/-- Only an array changes. -/
theorem dropScope_get? {s : Ref} {o : Obj} (ho : ∀ a, o ≠ .array a)
    (hget : vm.objects.get? s = some o) : (vm.dropScope f).objects.get? s = some o := by
  rw [dropScope, scopes?]
  cases f.localScopes with
  | none => exact hget
  | some r =>
    dsimp only
    cases hr : vm.objects.get? r with
    | none => exact hget
    | some o' =>
      cases o' with
      | array a =>
        refine (Heap.get?_set_ne ?_).trans hget
        rintro rfl
        rw [hr] at hget
        exact ho a (Option.some.inj hget).symm
      | _ => exact hget

theorem dropScope_frames (vm : VM) (f : CallFrame) : (vm.dropScope f).frames = vm.frames := by
  rw [dropScope]
  split <;> rfl

/-- The scope on top. -/
theorem HasScopes.currentLocalScope?_eq {below : List (Ref × (Bytes → Option Value))} {top : Ref}
    (h : vm.HasScopes fmt f (below ++ [(top, d)])) :
    ∃ t, vm.currentLocalScope? f = some (top, t) ∧ vm.objects.get? top = some (.hash t) ∧
      Refines (nameLabels fmt vm.objects) t d := by
  obtain ⟨r, a, hf, ha, -, hcount, -, hlen, hlive⟩ := h.scopes?_eq
  obtain ⟨t, ht, hd⟩ := h.table (top, d) (List.mem_append_right _ (List.mem_singleton_self _))
  refine ⟨t, ?_, ht, hd⟩
  rw [List.length_append, List.length_singleton] at hcount
  have htop : a.elements.getD (a.count - 1) .null = .obj top := by
    have hget : a.live[a.count - 1]? = some (.obj top) := by
      rw [hlive, hcount, Nat.add_sub_cancel, List.map_append]
      exact List.getElem?_append_right (List.length_map _).le |>.trans
        (by rw [List.length_map, Nat.sub_self]; rfl)
    rw [ArrayObj.live, List.getElem?_take_of_lt (by omega)] at hget
    rw [List.getD_eq_getElem?_getD, hget]
    rfl
  simp only [currentLocalScope?, hf, Option.bind_eq_bind, Option.bind_some, ha, htop, ht]
  rw [if_neg (by omega)]
  rfl

theorem live_pred {a : ArrayObj} (h : a.count ≤ a.elements.length) :
    ArrayObj.live { a with count := a.count - 1 } = a.live.dropLast := by
  rw [List.dropLast_eq_take, ArrayObj.live, ArrayObj.live, List.take_take, List.length_take,
    Nat.min_eq_left h, Nat.min_eq_left (Nat.sub_le _ _)]

/-! ### Pushing -/

/-- A new scope is on the array of the scopes. -/
structure Pushed (vm vm' : VM) (r : Ref) (a : ArrayObj) (scope : Ref) : Prop where
  frames : vm'.frames = vm.frames
  fresh : ∀ {s o}, vm.objects.get? s = some o → s ≠ scope
  array : vm'.objects.get? r = some (.array (a.push (.obj scope)))
  table : vm'.objects.get? scope = some (.hash {})
  other : ∀ {s o}, s ≠ r → vm.objects.get? s = some o → vm'.objects.get? s = some o
  data : SameData vm.objects vm'.objects

theorem pushed_alloc {a : ArrayObj} (sizeof : ObjType → ℕ) (ha : vm.objects.get? r = some (.array a)) :
    Pushed vm ((vm.alloc sizeof (.hash {})).1.setObj r
      (.array (a.push (.obj (vm.alloc sizeof (.hash {})).2)))) r a (vm.alloc sizeof (.hash {})).2 := by
  have ha₁ := vm.alloc_get?_of_some sizeof (.hash {}) ha
  have hfresh : ∀ {s o}, vm.objects.get? s = some o → s ≠ (vm.alloc sizeof (.hash {})).2 :=
    fun hs => Heap.ne_freshRef hs
  exact {
    frames := rfl
    fresh := hfresh
    array := Heap.get?_set_self (by rw [ha₁]; rfl)
    table := (Heap.get?_set_ne (hfresh ha)).trans (vm.alloc_get?_self sizeof _)
    other := fun hs hget =>
      (Heap.get?_set_ne (Ne.symm hs)).trans (vm.alloc_get?_of_some sizeof _ hget)
    data := (sameData_alloc vm sizeof (.hash {}) nofun nofun).trans
      (sameData_set ha₁ nofun nofun nofun nofun) }

theorem pushLocalScope_eq {a : ArrayObj} (sizeof : ObjType → ℕ) (fmt : Printf)
    (hf : vm.currentFrame? = some f) (hscopes : vm.scopes? f = some (r, a))
    (ha : vm.objects.get? r = some (.array a)) (args : List Value) :
    ∃ vm' scope, Pushed vm vm' r a scope ∧ vm.pushLocalScope sizeof fmt args =
      match initializeScope fmt scope vm' args with
      | .ok vm => { vm, ok := true }
      | .error message vm => { vm := vm.dropScope f, ok := false, error? := some message } := by
  refine ⟨_, _, pushed_alloc sizeof ha, ?_⟩
  rw [pushLocalScope, hf]
  dsimp only
  rw [hscopes]

theorem viewSource_push (a : ArrayObj) (v : Value) : (a.push v).viewSource = a.viewSource := by
  rw [ArrayObj.push, ArrayObj.ensureCapacity]
  split <;> rfl

/-- The frame has an empty scope more. -/
theorem HasScopes.push {a : ArrayObj} {scope : Ref} (h : vm.HasScopes fmt f scopes)
    (hr : f.localScopes = some r) (ha : vm.objects.get? r = some (.array a))
    (hpushed : Pushed vm vm' r a scope) :
    vm'.HasScopes fmt f (scopes ++ [(scope, fun _ => none)]) := by
  obtain ⟨r', a', hr', ha', hview, hlen, hlive⟩ := h.array
  rw [hr] at hr'
  cases hr'
  rw [ha] at ha'
  cases ha'
  have hkeep : ∀ {s o}, (∀ a, o ≠ .array a) → vm.objects.get? s = some o →
      vm'.objects.get? s = some o := by
    intro s o ho hget
    refine hpushed.other ?_ hget
    rintro rfl
    rw [ha] at hget
    exact ho a (Option.some.inj hget).symm
  refine ⟨⟨r, _, hr, hpushed.array, (viewSource_push a _).trans hview, ArrayObj.count_le_push _, ?_⟩,
    ?_, fun s hs => ?_⟩
  · rw [ArrayObj.live_push hlen, hlive, List.map_append]
    rfl
  · rw [List.map_append, List.nodup_append]
    refine ⟨h.distinct, List.nodup_singleton _, ?_⟩
    intro s hs s' hs'
    obtain ⟨x, hx, rfl⟩ := List.mem_map.1 hs
    obtain ⟨t, ht, -⟩ := h.table x hx
    rw [List.mem_singleton.1 hs']
    exact hpushed.fresh ht
  · rcases List.mem_append.1 hs with hs | hs
    · obtain ⟨t, ht, hd⟩ := h.table s hs
      exact ⟨t, hkeep nofun ht, hd.rename fun x y hget => hkeep nofun hget⟩
    · rw [List.mem_singleton.1 hs]
      exact ⟨{}, hpushed.table, .empty rfl rfl⟩

/-- The scope on top is off the array; it stays an object. -/
theorem HasScopes.dropScope {below : List (Ref × (Bytes → Option Value))}
    {removed : Ref × (Bytes → Option Value)} (h : vm.HasScopes fmt f (below ++ [removed])) :
    (vm.dropScope f).HasScopes fmt f below := by
  obtain ⟨r, a, hr, ha, -, -, hview, hlen, hlive⟩ := h.scopes?_eq
  have hdistinct := h.distinct
  rw [List.map_append] at hdistinct
  refine ⟨⟨r, { a with count := a.count - 1 }, hr, ?_, hview, (Nat.sub_le _ _).trans hlen, ?_⟩,
    (List.nodup_append.1 hdistinct).1, fun s hs => ?_⟩
  · rw [dropScope_eq hr ha]
    exact Heap.get?_set_self (by rw [ha]; rfl)
  · rw [live_pred hlen, hlive, List.map_append, List.map_singleton, List.dropLast_concat]
  · obtain ⟨t, ht, hd⟩ := h.table s (List.mem_append_left _ hs)
    exact ⟨t, dropScope_get? nofun ht, hd.rename fun x y hget => dropScope_get? nofun hget⟩

/-- The initializers change the bindings of the scope on top. -/
theorem HasScopes.initialize {below : List (Ref × (Bytes → Option Value))} {top : Ref} {out : Outcome}
    (h : vm.HasScopes fmt f (below ++ [(top, d)])) (hinit : Initialized fmt top vm args d out) :
    ∃ d', (out.isOk = true → d' = vm.bindings args d) ∧
      out.vm.HasScopes fmt f (below ++ [(top, d')]) := by
  obtain ⟨r, a, hr, ha, hview, hlen, hlive⟩ := h.array
  obtain ⟨t, ht, -⟩ := h.table (top, d) (List.mem_append_right _ (List.mem_singleton_self _))
  obtain ⟨t', d', ht', hd', hok⟩ := hinit.bound
  have hne : r ≠ top := by
    rintro rfl
    rw [ha] at ht
    cases ht
  have hdistinct := h.distinct
  rw [List.map_append] at hdistinct
  refine ⟨d', hok, ⟨r, a, hr, (hinit.other r hne).trans ha, hview, hlen, ?_⟩, ?_, fun s hs => ?_⟩
  · rw [hlive, List.map_append, List.map_append]
    rfl
  · rw [List.map_append]
    exact hdistinct
  · rcases List.mem_append.1 hs with hs | hs
    · obtain ⟨u, hu, hd⟩ := h.table s (List.mem_append_left _ hs)
      have hs' : s.1 ≠ top := (List.nodup_append.1 hdistinct).2.2 s.1 (List.mem_map_of_mem hs) top
        (List.mem_singleton_self _)
      exact ⟨u, (hinit.other _ hs').trans hu, hd.rename hinit.same.keepsStrings⟩
    · rw [List.mem_singleton.1 hs]
      exact ⟨t', ht', hd'⟩

/-! ### The law -/

theorem pushLocalScope_atomic (sizeof : ObjType → ℕ) (hf : vm.currentFrame? = some f)
    (h : vm.HasScopes fmt f scopes) (args : List Value) :
    Atomic sizeof fmt .pushl vm f scopes args := by
  obtain ⟨r, a, hr, ha, hscopes, -⟩ := h.scopes?_eq
  obtain ⟨vm', scope, hpushed, heq⟩ := pushLocalScope_eq sizeof fmt hf hscopes ha args
  have h' := h.push hr ha hpushed
  have hempty : Refines (nameLabels fmt vm'.objects) {} fun _ => none := .empty rfl rfl
  have hinit := initializeScope_initialized hpushed.table hempty args
  obtain ⟨d', hok, hout⟩ := h'.initialize hinit
  rw [hpushed.data.bindings_eq] at hok
  rw [Atomic, ScopeOp.run, heq]
  generalize initializeScope fmt scope vm' args = out at hinit hok hout ⊢
  have hframes : out.vm.frames = vm.frames := by rw [hinit.machine]; exact hpushed.frames
  have htable : ∀ s t, vm.objects.get? s = some (.hash t) → out.vm.objects.get? s = some (.hash t) := by
    intro s t ht
    refine (hinit.other s (hpushed.fresh ht)).trans (hpushed.other ?_ ht)
    rintro rfl
    rw [ha] at ht
    cases ht
  cases out with
  | ok vm₁ =>
    exact ⟨hframes, fun s t _ ht => htable s t ht, fun _ => ⟨_, ⟨scope, rfl⟩, hok rfl ▸ hout⟩, nofun⟩
  | error message vm₁ =>
    exact ⟨(dropScope_frames vm₁ f).trans hframes, fun s t _ ht => dropScope_get? nofun (htable s t ht),
      nofun, fun _ => hout.dropScope⟩

/-- There is no scope to take off: the bottom one stays. -/
theorem popLocalScope_atomic_of_le (sizeof : ObjType → ℕ) (hf : vm.currentFrame? = some f)
    (h : vm.HasScopes fmt f scopes) (hle : scopes.length ≤ 1) (args : List Value) :
    Atomic sizeof fmt .popl vm f scopes args := by
  obtain ⟨r, a, -, -, hscopes, hcount, -⟩ := h.scopes?_eq
  have hpop : vm.popLocalScope fmt args =
      { vm, ok := false, warning? := some "&popl: no more local frames exist" } := by
    rw [popLocalScope, hf]
    dsimp only
    rw [hscopes]
    exact if_pos (show a.count ≤ 1 by omega)
  rw [Atomic, ScopeOp.run, hpop]
  exact ⟨rfl, fun s t _ ht => ht, nofun, fun _ => h⟩

/-- The scope on top goes before the initializers are looked at. -/
theorem popLocalScope_eq {below : List (Ref × (Bytes → Option Value))} {top : Ref}
    {removed : Ref × (Bytes → Option Value)} (hf : vm.currentFrame? = some f)
    (h : vm.HasScopes fmt f (below ++ [(top, d), removed])) (args : List Value) :
    vm.popLocalScope fmt args =
      match initializeScope fmt top (vm.dropScope f) args with
      | .ok vm => { vm, ok := true }
      | .error message vm => { vm, ok := false, error? := some message } := by
  obtain ⟨r, a, -, -, hscopes, hcount, -⟩ := h.scopes?_eq
  rw [List.append_cons] at h
  obtain ⟨t, htop, -⟩ := h.dropScope.currentLocalScope?_eq
  have hlt : ¬a.count ≤ 1 := by
    rw [List.length_append] at hcount
    simp only [List.length_cons, List.length_nil] at hcount
    omega
  rw [popLocalScope, hf]
  dsimp only
  rw [hscopes]
  refine (if_neg (show ¬a.count ≤ 1 from hlt)).trans ?_
  rw [htop]

theorem popLocalScope_atomic_iff {below : List (Ref × (Bytes → Option Value))} {top : Ref}
    {removed : Ref × (Bytes → Option Value)} (sizeof : ObjType → ℕ) (hf : vm.currentFrame? = some f)
    (h : vm.HasScopes fmt f (below ++ [(top, d), removed])) (args : List Value) :
    Atomic sizeof fmt .popl vm f (below ++ [(top, d), removed]) args ↔
      ∀ arg ∈ args, vm.IsInitializer arg := by
  have h' := (List.append_cons below (top, d) [removed] ▸ h).dropScope
  obtain ⟨t, -, ht, hd⟩ := h'.currentLocalScope?_eq
  have hinit := initializeScope_initialized ht hd args
  obtain ⟨d', hok, hout⟩ := h'.initialize hinit
  obtain ⟨r, a, hr, ha, -⟩ := h.scopes?_eq
  have hdata : SameData vm.objects (vm.dropScope f).objects := by
    rw [dropScope_eq hr ha]
    exact sameData_set ha nofun nofun nofun nofun
  have hgood := hinit.isOk
  simp only [hdata.isInitializer_iff] at hgood
  rw [hdata.bindings_eq] at hok
  rw [← hgood, Atomic, ScopeOp.run, popLocalScope_eq hf h]
  generalize initializeScope fmt top (vm.dropScope f) args = out at hinit hok hout ⊢
  have hframes : out.vm.frames = vm.frames := by rw [hinit.machine]; exact dropScope_frames vm f
  have htable : ∀ s t, s ∉ (below ++ [(top, d), removed]).map Prod.fst →
      vm.objects.get? s = some (.hash t) → out.vm.objects.get? s = some (.hash t) := by
    intro s t hs ht
    refine (hinit.other s ?_).trans (dropScope_get? nofun ht)
    rintro rfl
    exact hs (List.mem_map_of_mem (List.mem_append_right _ List.mem_cons_self))
  cases out with
  | ok vm₁ =>
    have hnext : ScopeOp.Next vm args (below ++ [(top, d), removed]) _ .popl :=
      ⟨below, top, d, removed, rfl, rfl⟩
    exact iff_of_true ⟨hframes, htable, fun _ => ⟨_, hnext, hok rfl ▸ hout⟩, nofun⟩ rfl
  | error message vm₁ =>
    refine iff_of_false (fun hatomic => ?_) Bool.false_ne_true
    -- the frame has a scope less, although the operation failed
    have hfail : vm₁.HasScopes fmt f (below ++ [(top, d), removed]) := hatomic.2.2.2 rfl
    have hlength := hfail.length_eq hout
    simp only [List.length_append, List.length_cons, List.length_nil] at hlength
    omega

theorem exists_of_two_le {α : Type} {l : List α} (h : 2 ≤ l.length) :
    ∃ below top removed, l = below ++ [top, removed] := by
  rcases List.eq_nil_or_concat l with rfl | ⟨l', removed, rfl⟩
  · cases h
  · rcases List.eq_nil_or_concat l' with rfl | ⟨below, top, rfl⟩
    · exact absurd h (Nat.not_le.2 (Nat.lt_succ_self 1))
    · exact ⟨below, top, removed, by simp⟩

/-- **`pushl` is atomic always, and `popl` if and only if there is no scope to take off or every
initializer is good.** -/
theorem atomic_iff (sizeof : ObjType → ℕ) (fmt : Printf) (op : ScopeOp) (vm : VM) (f : CallFrame)
    (scopes : List (Ref × (Bytes → Option Value))) (args : List Value)
    (hf : vm.currentFrame? = some f) (h : vm.HasScopes fmt f scopes) :
    Atomic sizeof fmt op vm f scopes args ↔
      (op = .popl → scopes.length ≤ 1 ∨ ∀ arg ∈ args, vm.IsInitializer arg) := by
  cases op with
  | pushl => exact iff_of_true (pushLocalScope_atomic sizeof hf h args) nofun
  | popl =>
    by_cases hle : scopes.length ≤ 1
    · exact iff_of_true (popLocalScope_atomic_of_le sizeof hf h hle args) fun _ => .inl hle
    · obtain ⟨below, ⟨top, d⟩, removed, rfl⟩ := exists_of_two_le (Nat.lt_of_not_le hle)
      rw [popLocalScope_atomic_iff sizeof hf h]
      exact ⟨fun hgood _ => .inr hgood, fun hgood => (hgood rfl).resolve_left hle⟩

/-- A frame with two scopes. -/
def twoScopes : VM where
  frames := [{ closure := 9, slots := 0, localScopes := some 0 }]
  objects := [⟨0, false, .array { elements := [.obj 1, .obj 2], count := 2 }⟩, ⟨1, false, .hash {}⟩,
    ⟨2, false, .hash {}⟩]

theorem hasScopes_twoScopes (fmt : Printf) : twoScopes.HasScopes fmt
    { closure := 9, slots := 0, localScopes := some 0 } [(1, fun _ => none), (2, fun _ => none)] := by
  refine ⟨⟨0, _, rfl, rfl, rfl, by decide, rfl⟩, by decide, fun s hs => ?_⟩
  rcases List.mem_cons.1 hs with rfl | hs
  · exact ⟨{}, rfl, .empty rfl rfl⟩
  · rw [List.mem_singleton.1 hs]
    exact ⟨{}, rfl, .empty rfl rfl⟩

/-- One of them is taken off without an initializer. -/
theorem atomic_iff_twoScopes : Atomic (fun _ => 0) ⟨fun _ => [], fun _ => []⟩ .popl twoScopes
      { closure := 9, slots := 0, localScopes := some 0 } [(1, fun _ => none), (2, fun _ => none)] [] ↔
    (ScopeOp.popl = .popl → 2 ≤ 1 ∨ ∀ arg ∈ [], twoScopes.IsInitializer arg) :=
  atomic_iff _ _ .popl twoScopes _ _ [] rfl (hasScopes_twoScopes _)

/-- An initializer that is no pair: the scope is gone. -/
theorem not_atomic_popl : ¬ Atomic (fun _ => 0) ⟨fun _ => [], fun _ => []⟩ .popl twoScopes
    { closure := 9, slots := 0, localScopes := some 0 } [(1, fun _ => none), (2, fun _ => none)]
    [.null] := by
  intro h
  obtain ⟨r, a, hr, ha, -, hcount, -⟩ := (h.2.2.2 rfl).scopes?_eq
  cases hr
  cases ha
  exact absurd hcount (by decide)

end

end VM

end Slp
