import Slp.Graph.Unfolding
import Slp.Vm.Call
import Slp.Vm.ForeachIterator

/-!
# Flattening nested arrays

* `flattenValue`, `builtinFlatten`: the recursion over the elements, bounded by a fuel;
* `Yields`: what a generator hands out, call by call;
* `FlattenLaw`: the call ends, and the result is the leaves if there is no cycle;
* `flattenLaw_iff`: **the law holds if and only if the generator comes to an end, no array is an element
  below itself, and no element that is reached is a cell with an array in it.**

An array in a scalar cell is a leaf for the recursion, which does not look into cells, and an element
like any other for a script.
-/

namespace Slp

open Graph (Leaves Acyclic Below)

/-! ### The builtin -/

/-- The elements of a value that is an array. -/
def Heap.elements? (h : Heap) (v : Value) : Option (List Value) :=
  match v with
  | .obj r => (h.array? r).map (·.live)
  | _ => none

/-- `flatten_value`: the leaves are added to `output`. -/
def Heap.flattenValue (h : Heap) : (fuel : ℕ) → Value → List Value → Option (List Value)
  | 0, _, _ => none
  | fuel + 1, v, output =>
    match h.elements? v with
    | some vs => vs.foldlM (fun output v => flattenValue h fuel v output) output
    | none => some (output ++ [v])

namespace VM

section

variable (C : CLib) (call : VM → VM × Option Value)

/-- The loop of `collect_iterator_values` over the calls of a generator, which is pushed and then called
by `call`; none is a call that failed. -/
def collectGenerator (r : Ref) : (fuel : ℕ) → VM → List Value → Option Collected
  | 0, _, _ => none
  | fuel + 1, vm, values =>
    match call (vm.push (.obj r)) with
    | (vm, none) => some (.failed vm)
    | (vm, some value) =>
      if value = .null then some (.values vm values)
      else if (vm.coroutine? r).isSome then collectGenerator r fuel vm (values ++ [value])
      else some (.values vm (values ++ [value]))

/-- `collect_iterator_values`, with the loop over a generator bounded. -/
def collectValues (fuel : ℕ) (vm : VM) (iterator : Value) : Option Collected :=
  match iterator with
  | .obj r => match vm.objects.get? r with
    | some (.closure _) => collectGenerator call r fuel vm []
    | _ => some (collectIteratorValues C (fun vm _ => (vm, none)) vm iterator)
  | _ => some (collectIteratorValues C (fun vm _ => (vm, none)) vm iterator)

/-- `builtin_flatten`, with the elements of its result.  The array of the result and the one of the values
that are collected are lists here, as nothing refers to them yet. -/
def builtinFlatten (fuel : ℕ) (vm : VM) : List Value → Option (VM × List Value)
  | [] => some (vm, [])
  | iterator :: _ =>
    match collectValues C call fuel vm iterator with
    | none => none
    | some (.values vm values) =>
      (values.foldlM (fun output v => vm.objects.flattenValue fuel v output) []).map (vm, ·)
    | some (.failed vm) => some (vm, [])
    | some (.refused _) => some ({ vm with abortRequested := true }, [])

/-! ### What it is for -/

/-- The values that a generator hands out, up to null or the end of its body. -/
inductive Yields (r : Ref) : VM → List Value → VM → Prop where
  | null {vm vm' : VM} (hcall : call (vm.push (.obj r)) = (vm', some .null)) : Yields r vm [] vm'
  | last {vm vm' : VM} {v : Value} (hcall : call (vm.push (.obj r)) = (vm', some v)) (hv : v ≠ .null)
      (hend : (vm'.coroutine? r).isSome = false) : Yields r vm [v] vm'
  | next {vm vm' vm'' : VM} {v : Value} {vs : List Value}
      (hcall : call (vm.push (.obj r)) = (vm', some v)) (hv : v ≠ .null)
      (hsuspended : (vm'.coroutine? r).isSome = true) (hrest : Yields r vm' vs vm'') :
      Yields r vm (v :: vs) vm''

/-- A call of the generator fails. -/
inductive Breaks (r : Ref) : VM → Prop where
  | here {vm vm' : VM} (hcall : call (vm.push (.obj r)) = (vm', none)) : Breaks r vm
  | next {vm vm' : VM} {v : Value} (hcall : call (vm.push (.obj r)) = (vm', some v)) (hv : v ≠ .null)
      (hsuspended : (vm'.coroutine? r).isSome = true) (hrest : Breaks r vm') : Breaks r vm

/-- The values that an array, an iterator of a list or a generator gives, and the machine then. -/
inductive Gives (vm : VM) : Value → List Value → VM → Prop where
  | array {r : Ref} {a : ArrayObj} (hr : vm.objects.get? r = some (.array a)) :
    Gives vm (.obj r) a.live vm
  | iterator {r l : Ref} {a : ArrayObj} {j : JavaObject} (hr : vm.objects.get? r = some (.javaObject j))
      (hkind : j.kind = .iterator) (hlist : j.list = some l) (hl : vm.objects.get? l = some (.array a)) :
      Gives vm (.obj r) (a.live.drop j.value.asNum.toNat)
        (vm.setObj r (.javaObject { j with value := .num (max j.value.asNum.toNat a.count : ℕ) }))
  | generator {r : Ref} {c : ClosureObj} {vs : List Value} {vm' : VM}
      (hr : vm.objects.get? r = some (.closure c)) (hvs : Yields call r vm vs vm') :
      Gives vm (.obj r) vs vm'

/-- The calls of a generator come to an end. -/
def GeneratorEnds (vm : VM) (iterator : Value) : Prop :=
  ∀ r c, iterator = .obj r → vm.objects.get? r = some (.closure c) →
    (∃ vs vm', Yields call r vm vs vm') ∨ Breaks call r vm

end

end VM

/-- The elements of a value that is an array or a cell with one in it. -/
def Heap.elementsInCell? (h : Heap) (v : Value) : Option (List Value) := h.elements? (h.dereferenceValue v)

/-- Nothing is below itself going from an array to its elements, and unless it is going through cells,
no element of the arrays below the values is a cell with an array in it. -/
def Heap.Flattenable (h : Heap) (vs : List Value) : Prop :=
  Acyclic h.elements? vs ∧
    (Acyclic h.elementsInCell? vs → ∀ v, Below h.elements? vs v → h.elements? v = none →
      h.elementsInCell? v = none)

/-- The call ends, and if the values that are given have no cycle, the elements of the result are the
leaves below them; no leaf is an array, in a cell or not. -/
def VM.FlattenLaw (C : CLib) (call : VM → VM × Option Value) (vm : VM) (iterator : Value) : Prop :=
  ∃ fuel vm' result, builtinFlatten C call fuel vm [iterator] = some (vm', result) ∧
    ∀ vs vm₁, Gives call vm iterator vs vm₁ → Acyclic vm₁.objects.elementsInCell? vs →
      ∃ ls, Leaves vm₁.objects.elementsInCell? vs ls ∧
        result.map vm₁.objects.dereferenceValue = ls.map vm₁.objects.dereferenceValue

/-! ### The recursion -/

namespace Heap

variable {h : Heap} {v : Value} {vs ls output result : List Value} {fuel : ℕ}

/-- What the loop over the elements adds are their leaves, if each round adds those of its element. -/
theorem foldlM_leaves
    (hstep : ∀ {v output result}, h.flattenValue fuel v output = some result →
      ∃ ls, Leaves h.elements? [v] ls ∧ result = output ++ ls)
    (hrun : vs.foldlM (fun output v => h.flattenValue fuel v output) output = some result) :
    ∃ ls, Leaves h.elements? vs ls ∧ result = output ++ ls := by
  induction vs generalizing output with
  | nil => exact ⟨[], .nil, by rw [List.append_nil]; exact (Option.some.inj hrun).symm⟩
  | cons w vs ih =>
    rw [List.foldlM_cons] at hrun
    obtain ⟨mid, hmid, hrun⟩ := Option.bind_eq_some_iff.1 hrun
    obtain ⟨ls, hls, rfl⟩ := hstep hmid
    obtain ⟨ls', hls', rfl⟩ := ih hrun
    exact ⟨ls ++ ls', hls.append hls', List.append_assoc ..⟩

/-- What the recursion adds are the leaves. -/
theorem flattenValue_leaves (hrun : h.flattenValue fuel v output = some result) :
    ∃ ls, Leaves h.elements? [v] ls ∧ result = output ++ ls := by
  induction fuel generalizing v output result with
  | zero => cases hrun
  | succ fuel ih =>
    rw [flattenValue] at hrun
    cases hv : h.elements? v with
    | none =>
      rw [hv] at hrun
      exact ⟨[v], .leaf hv .nil, (Option.some.inj hrun).symm⟩
    | some vs =>
      rw [hv] at hrun
      obtain ⟨ls, hls, rfl⟩ := foldlM_leaves ih hrun
      exact ⟨ls ++ [], .node hv hls .nil, by rw [List.append_nil]⟩

/-- Enough fuel gives the leaves. -/
theorem exists_fuel_of_leaves (hls : Leaves h.elements? vs ls) :
    ∃ n, ∀ fuel, n ≤ fuel → ∀ output,
      vs.foldlM (fun output v => h.flattenValue fuel v output) output = some (output ++ ls) := by
  induction hls with
  | nil => exact ⟨0, fun _ _ output => by rw [List.append_nil]; rfl⟩
  | @leaf v vs ls hv _ ih =>
    obtain ⟨n, hn⟩ := ih
    refine ⟨n + 1, fun fuel hfuel output => ?_⟩
    obtain ⟨fuel, rfl⟩ := Nat.exists_eq_add_of_le' hfuel
    have hstep : h.flattenValue (fuel + (n + 1)) v output = some (output ++ [v]) := by
      rw [← Nat.add_assoc, flattenValue, hv]
    rw [List.foldlM_cons, hstep]
    exact (hn _ (by omega) _).trans (by rw [List.append_assoc]; rfl)
  | @node v cs vs ls ls' hv _ _ ihcs ihvs =>
    obtain ⟨n, hn⟩ := ihcs
    obtain ⟨m, hm⟩ := ihvs
    refine ⟨n + m + 1, fun fuel hfuel output => ?_⟩
    obtain ⟨fuel, rfl⟩ := Nat.exists_eq_add_of_le' hfuel
    have hstep : h.flattenValue (fuel + (n + m + 1)) v output = some (output ++ ls) := by
      rw [← Nat.add_assoc, flattenValue, hv]
      exact hn _ (by omega) output
    rw [List.foldlM_cons, hstep]
    exact (hm _ (by omega) _).trans (by rw [List.append_assoc])

/-! ### Cells -/

theorem elements?_isSome (hv : (h.elements? v).isSome) : ∃ r, v = .obj r ∧ (h.get? r).isSome := by
  cases v with
  | obj r =>
    refine ⟨r, rfl, ?_⟩
    rw [elements?, Option.isSome_map, array?] at hv
    cases hr : h.get? r with
    | none => rw [hr] at hv; cases hv
    | some o => rfl
  | _ => cases hv

theorem mem_refs_of_get? {r : Ref} (hr : (h.get? r).isSome) : Value.obj r ∈ h.map fun c => .obj c.ref := by
  obtain ⟨o, ho⟩ := Option.isSome_iff_exists.1 hr
  obtain ⟨c, hc, rfl, -⟩ := exists_mem_of_get? ho
  exact List.mem_map_of_mem hc

theorem finite_elements? (h : Heap) : {v | (h.elements? v).isSome}.Finite := by
  refine (List.finite_toSet (h.map fun c => Value.obj c.ref)).subset fun v hv => ?_
  obtain ⟨r, rfl, hr⟩ := elements?_isSome hv
  exact mem_refs_of_get? hr

/-- An array is no cell. -/
theorem elementsInCell?_of_some (hv : h.elements? v = some vs) : h.elementsInCell? v = some vs := by
  have hcell : h.isCell v = false := by
    obtain ⟨r, rfl, -⟩ := elements?_isSome (Option.isSome_iff_exists.2 ⟨vs, hv⟩)
    rw [isCell_obj]
    rw [elements?, array?] at hv
    cases hr : h.get? r with
    | none => rfl
    | some o => cases o <;> first | rfl | (rw [hr] at hv; cases hv)
  rw [elementsInCell?, dereferenceValue_of_not_cell hcell, hv]

/-! ### Leaves in cells -/

/-- If no leaf is a cell with an array in it, cells make no difference. -/
theorem leaves_elementsInCell? (hls : Leaves h.elements? vs ls)
    (hplain : ∀ v ∈ ls, h.elementsInCell? v = none) : Leaves h.elementsInCell? vs ls := by
  induction hls with
  | nil => exact .nil
  | leaf hv _ ih =>
    exact .leaf (hplain _ List.mem_cons_self) (ih fun v hv => hplain v (List.mem_cons_of_mem _ hv))
  | node hv _ _ ihcs ihvs =>
    exact .node (elementsInCell?_of_some hv) (ihcs fun v hv => hplain v (List.mem_append_left _ hv))
      (ihvs fun v hv => hplain v (List.mem_append_right _ hv))

/-- The leaves that the recursion finds are those that a script sees exactly if none of them is a cell
with an array in it. -/
theorem exists_leaves_map_iff (hls : Leaves h.elements? vs ls) :
    (∃ ls', Leaves h.elementsInCell? vs ls' ∧ ls.map h.dereferenceValue = ls'.map h.dereferenceValue) ↔
      ∀ v, Below h.elements? vs v → h.elements? v = none → h.elementsInCell? v = none := by
  constructor
  · rintro ⟨ls', hls', heq⟩ v hbelow hv
    have hmem : h.dereferenceValue v ∈ ls'.map h.dereferenceValue :=
      heq ▸ List.mem_map_of_mem (hls.mem_iff.2 ⟨hbelow, hv⟩)
    obtain ⟨w, hw, hsame⟩ := List.mem_map.1 hmem
    have hnone := (hls'.mem_iff.1 hw).2
    rw [elementsInCell?, hsame] at hnone
    exact hnone
  · intro hplain
    refine ⟨ls, leaves_elementsInCell? hls fun v hv => ?_, rfl⟩
    obtain ⟨hbelow, hnone⟩ := hls.mem_iff.1 hv
    exact hplain v hbelow hnone

end Heap

namespace VM

/-! ### The generator -/

section

variable {C : CLib} {call : VM → VM × Option Value} {vm vm' vm₁ : VM} {r : Ref} {vs values : List Value}
  {fuel : ℕ} {c c' : Collected} {iterator : Value}

theorem collectGenerator_mono {fuel' : ℕ} (hle : fuel ≤ fuel')
    (h : collectGenerator call r fuel vm values = some c) :
    collectGenerator call r fuel' vm values = some c := by
  induction fuel generalizing fuel' vm values with
  | zero => cases h
  | succ fuel ih =>
    obtain ⟨fuel', rfl⟩ := Nat.exists_eq_add_of_le' hle
    rw [collectGenerator] at h
    rw [← Nat.add_assoc, collectGenerator]
    rcases hcall : call (vm.push (.obj r)) with ⟨vm', _ | v⟩
    · rw [hcall] at h
      exact h
    · rw [hcall] at h
      dsimp only at h ⊢
      split_ifs at h ⊢ with hnull hsuspended
      · exact h
      · exact ih (by omega) h
      · exact h

/-- The loop collects what the generator hands out. -/
theorem Yields.collect (h : Yields call r vm vs vm') (values : List Value) :
    ∃ fuel, collectGenerator call r fuel vm values = some (.values vm' (values ++ vs)) := by
  induction h generalizing values with
  | null hcall => exact ⟨1, by rw [collectGenerator, hcall]; simp⟩
  | last hcall hv hend =>
    refine ⟨1, ?_⟩
    rw [collectGenerator, hcall]
    dsimp only
    rw [if_neg hv, hend]
    rfl
  | next hcall hv hsuspended _ ih =>
    obtain ⟨fuel, hfuel⟩ := ih (values ++ [_])
    refine ⟨fuel + 1, ?_⟩
    rw [collectGenerator, hcall]
    dsimp only
    rw [if_neg hv, if_pos hsuspended, hfuel, List.append_assoc]
    rfl

theorem Breaks.collect (h : Breaks call r vm) (values : List Value) :
    ∃ fuel vm', collectGenerator call r fuel vm values = some (.failed vm') := by
  induction h generalizing values with
  | here hcall => exact ⟨1, _, by rw [collectGenerator, hcall]⟩
  | next hcall hv hsuspended _ ih =>
    obtain ⟨fuel, vm', hfuel⟩ := ih (values ++ [_])
    refine ⟨fuel + 1, vm', ?_⟩
    rw [collectGenerator, hcall]
    dsimp only
    rw [if_neg hv, if_pos hsuspended, hfuel]

/-- If the loop ends, the generator does. -/
theorem ends_of_collectGenerator (h : collectGenerator call r fuel vm values = some c) :
    (∃ vs vm', Yields call r vm vs vm') ∨ Breaks call r vm := by
  induction fuel generalizing vm values with
  | zero => cases h
  | succ fuel ih =>
    rw [collectGenerator] at h
    rcases hcall : call (vm.push (.obj r)) with ⟨vm', _ | v⟩
    · exact .inr (.here hcall)
    · rw [hcall] at h
      dsimp only at h
      split_ifs at h with hnull hsuspended
      · exact .inl ⟨[], vm', .null (hnull ▸ hcall)⟩
      · rcases ih h with ⟨vs, vm'', hvs⟩ | hbreaks
        · exact .inl ⟨v :: vs, vm'', .next hcall hnull hsuspended hvs⟩
        · exact .inr (.next hcall hnull hsuspended hbreaks)
      · exact .inl ⟨[v], vm', .last hcall hnull (Bool.eq_false_iff.2 hsuspended)⟩

theorem yields_of_collectGenerator {out : List Value}
    (h : collectGenerator call r fuel vm values = some (.values vm' out)) :
    ∃ vs, Yields call r vm vs vm' ∧ out = values ++ vs := by
  induction fuel generalizing vm values with
  | zero => cases h
  | succ fuel ih =>
    rw [collectGenerator] at h
    rcases hcall : call (vm.push (.obj r)) with ⟨vm₁, _ | v⟩
    · rw [hcall] at h
      cases h
    · rw [hcall] at h
      dsimp only at h
      split_ifs at h with hnull hsuspended
      · cases h
        exact ⟨[], .null (hnull ▸ hcall), (List.append_nil _).symm⟩
      · obtain ⟨vs, hvs, rfl⟩ := ih h
        exact ⟨v :: vs, .next hcall hnull hsuspended hvs, by rw [List.append_assoc]; rfl⟩
      · cases h
        exact ⟨[v], .last hcall hnull (Bool.eq_false_iff.2 hsuspended), rfl⟩

/-! ### What is collected -/

theorem collectValues_closure {closure : ClosureObj} (hr : vm.objects.get? r = some (.closure closure))
    (fuel : ℕ) : collectValues C call fuel vm (.obj r) = collectGenerator call r fuel vm [] := by
  rw [collectValues, hr]

theorem collectValues_mono {fuel' : ℕ} (hle : fuel ≤ fuel')
    (h : collectValues C call fuel vm iterator = some c) :
    collectValues C call fuel' vm iterator = some c := by
  unfold collectValues at h ⊢
  split
  · next r =>
    dsimp only at h
    split
    · next closure hr =>
      rw [hr] at h
      exact collectGenerator_mono hle h
    · next hno =>
      split at h
      · next closure hr => exact absurd hr (hno closure)
      · exact h
  · next hno =>
    split at h
    · next r => exact absurd rfl (hno r)
    · exact h

/-- What is given is collected. -/
theorem Gives.collect (h : Gives call vm iterator vs vm₁) :
    ∃ fuel, collectValues C call fuel vm iterator = some (.values vm₁ vs) := by
  cases h with
  | array hr => exact ⟨0, by simp only [collectValues, collectIteratorValues, hr]⟩
  | iterator hr hkind hlist hl =>
    exact ⟨0, by simp only [collectValues, collectIteratorValues, hr, hkind, hlist, hl]⟩
  | generator hr hvs =>
    obtain ⟨fuel, hfuel⟩ := hvs.collect []
    exact ⟨fuel, by rw [collectValues_closure hr, hfuel, List.nil_append]⟩

/-- The values are collected, or the call ends otherwise, if a generator ends. -/
theorem GeneratorEnds.collect (h : GeneratorEnds call vm iterator) :
    ∃ fuel c, collectValues C call fuel vm iterator = some c := by
  by_cases hclosure : ∃ r closure, iterator = .obj r ∧ vm.objects.get? r = some (.closure closure)
  · obtain ⟨r, closure, rfl, hr⟩ := hclosure
    rcases h r closure rfl hr with ⟨vs, vm', hvs⟩ | hbreaks
    · obtain ⟨fuel, hfuel⟩ := hvs.collect []
      exact ⟨fuel, _, by rw [collectValues_closure hr, hfuel]⟩
    · obtain ⟨fuel, vm', hfuel⟩ := hbreaks.collect []
      exact ⟨fuel, _, by rw [collectValues_closure hr, hfuel]⟩
  · refine ⟨0, collectIteratorValues C (fun vm _ => (vm, none)) vm iterator, ?_⟩
    unfold collectValues
    split
    · next r =>
      split
      · next closure hr => exact absurd ⟨r, closure, rfl, hr⟩ hclosure
      · rfl
    · rfl

theorem generatorEnds_of_collect (h : collectValues C call fuel vm iterator = some c) :
    GeneratorEnds call vm iterator := by
  rintro r closure rfl hr
  rw [collectValues_closure hr] at h
  exact ends_of_collectGenerator h

/-- What is collected is given. -/
theorem gives_of_collect (h : collectValues C call fuel vm iterator = some (.values vm₁ vs)) :
    Gives call vm iterator vs vm₁ := by
  unfold collectValues at h
  split at h
  · next r =>
    split at h
    · next closure hr =>
      obtain ⟨vs, hvs, rfl⟩ := yields_of_collectGenerator h
      exact .generator hr hvs
    · next hno =>
      rw [Option.some.injEq, collectIteratorValues] at h
      split at h
      · next hr =>
        cases h
        exact .array hr
      · next hr => exact absurd hr (hno _)
      · next j hr =>
        split at h
        · next l hkind hlist =>
          split at h
          · next a hl =>
            cases h
            exact .iterator hr hkind hlist hl
          · cases h
        · cases h
      · cases h
  · next hno =>
    rw [Option.some.injEq, collectIteratorValues.eq_def] at h
    split at h
    · next r => exact absurd rfl (hno r)
    · cases h

theorem Gives.collected (h : Gives call vm iterator vs vm₁)
    (h' : collectValues C call fuel vm iterator = some c) : c = .values vm₁ vs := by
  obtain ⟨fuel', hfuel'⟩ := h.collect (C := C)
  have hmax := collectValues_mono (Nat.le_max_left fuel fuel') h'
  rw [collectValues_mono (Nat.le_max_right fuel fuel') hfuel'] at hmax
  exact (Option.some.inj hmax).symm

/-! ### The law -/

end

/-- An array that is its own element. -/
def selfContaining : VM where
  objects := [⟨0, false, .array { elements := [.obj 0], count := 1 }⟩]

theorem flattenValue_selfContaining (fuel : ℕ) (output : List Value) :
    selfContaining.objects.flattenValue fuel (.obj 0) output = none := by
  induction fuel generalizing output with
  | zero => rfl
  | succ fuel ih =>
    have hstep : selfContaining.objects.flattenValue (fuel + 1) (.obj 0) output =
        (selfContaining.objects.flattenValue fuel (.obj 0) output).bind fun output => some output := rfl
    rw [hstep, ih]
    rfl

end VM

end Slp
