import Mathlib.Data.List.Forall2
import Mathlib.Data.List.Perm.Subperm
import Slp.Graph.Marking
import Slp.Vm.Arguments
import Slp.Vm.ForeachHash

/-!
# The copy of a data structure

`clone_serializable` copies a graph of arrays and hashes.  It keeps a list of the containers it has
met with their copies, which it fills before it goes into a container, so that what is shared or
cyclic in the graph is so in the copy.  A scalar cell is read through, and what is no container is
taken over.

`cloneValue_copies` : on a graph of arrays and hashes the copying ends, every container that was
met has a copy of its own at a new address, and the copies are filled: an array with the images of
its elements, a hash with those of its *first* entries, as many as the table has visible ones.
Closures are not copied here.
-/

namespace Slp

namespace HashObj

variable {fmt : Printf} {h : Heap} {t : HashObj} {es : List HashEntry} {key : Value} {name : Bytes}
  {d : Bytes → Option Value}

/-- A new name is bound last. -/
theorem InOrder.set_name (ho : InOrder t es) (hr : Refines (nameLabels fmt h) t d)
    (hn : nameText h key = some name) (hd : d name = none) (value : Value) :
    (∃ n, InOrder (set fmt h t key value) (es ++ [⟨key, value, n⟩])) ∧
      (set fmt h t key value).orderMode = t.orderMode := by
  have hkey : key ≠ .null := by
    rintro rfl
    cases hn
  obtain ⟨m, t', hm, hset, hst⟩ := ho.sized.exists_set? fmt h key value
  rw [set_eq_of_set? hset]
  have hmode : m.orderMode = t.orderMode := by rw [hm.same]
  cases hst with
  | update p e hfound he hlive hequal =>
    -- no entry has the name
    rcases (hr.prepared hm).lookup (L := nameLabels fmt h) hn with ⟨hnone, -⟩ | ⟨q, y, -, -, -, -, hy⟩
    · rw [hfound] at hnone
      cases hnone
    · rw [hd] at hy
      cases hy
  | insert p e hfound he hdead hwalk =>
    exact ⟨⟨_, (ho.prepared hm).insert ⟨key, value, m.nextSequence + 1⟩ he hdead
      (HashEntry.mark_eq_live.2 hkey) rfl rfl rfl rfl⟩, hmode⟩

end HashObj

namespace Stdlib

/-! ### The copying -/

/-- `SerializationCloneContext`: the containers met, each with its copy. -/
abbrev CloneContext := List (Ref × Ref)

/-- The machine and the context in the course of the copying. -/
structure CloneState where
  vm : VM
  context : CloneContext := []

namespace CloneState

/-- A new container, and `clone_context_add`. -/
def add (sizeof : ObjType → ℕ) (s : CloneState) (source : Ref) (o : Obj) : CloneState × Ref :=
  let (vm, copy) := s.vm.alloc sizeof o
  (⟨vm, s.context ++ [(source, copy)]⟩, copy)

/-- `slp_obj_array_push` on a copy. -/
def push (s : CloneState) (copy : Ref) (v : Value) : CloneState :=
  match s.vm.objects.get? copy with
  | some (.array a) => { s with vm := s.vm.setObj copy (.array (a.push v)) }
  | _ => s

/-- `slp_vm_hash_set` on a copy, which has no removal policy.  The key is that of an entry, a string,
which is its own canonical key. -/
def set (fmt : Printf) (s : CloneState) (copy : Ref) (key value : Value) : CloneState :=
  let vm := s.vm.push key
  let vm := match vm.objects.get? copy with
    | some (.hash t) => vm.setObj copy (.hash (t.set fmt vm.objects key value))
    | _ => vm
  { s with vm := vm.pop.2 }

end CloneState

section Clone

variable (sizeof : ObjType → ℕ) (fmt : Printf)

/-- The loop of `clone_serializable_array` over the elements. -/
def cloneElements (clone : CloneState → Value → Option (CloneState × Value)) (copy : Ref) :
    List Value → CloneState → Option CloneState
  | [], s => some s
  | v :: vs, s => do
    let (s, v) ← clone s v
    cloneElements clone copy vs (s.push copy v)

/-- The loop of `clone_serializable_hash` over the ordinals. -/
def cloneEntries (clone : CloneState → Value → Option (CloneState × Value)) (source : HashObj)
    (copy : Ref) : List ℕ → CloneState → Option CloneState
  | [], s => some s
  | ordinal :: ordinals, s =>
    match source.orderedIndex fmt s.vm.objects ordinal with
    | none => cloneEntries clone source copy ordinals s
    | some index => do
      let entry := source.entries.getD index {}
      let (s, key) ← clone s entry.key
      let (s, value) ← clone s entry.value
      cloneEntries clone source copy ordinals (s.set fmt copy key value)

/-- `clone_serializable_value`, at most `fuel` calls deep; a closure is out of the question here. -/
def cloneValue : (fuel : ℕ) → CloneState → Value → Option (CloneState × Value)
  | 0, _, _ => none
  | fuel + 1, s, value =>
    match s.vm.objects.dereferenceValue value with
    | .obj r =>
      match s.context.lookup r with
      | some copy => some (s, .obj copy)
      | none =>
        match s.vm.objects.get? r with
        | some (.array a) =>
          let (s, copy) := s.add sizeof r (.array {})
          (cloneElements (cloneValue fuel) copy a.live s).map (·, .obj copy)
        | some (.hash t) =>
          let (s, copy) := s.add sizeof r (.hash { orderMode := t.orderMode })
          (cloneEntries fmt (cloneValue fuel) t copy (List.range t.visibleCount) s).map
            (·, .obj copy)
        | some (.closure _) => none
        | _ => some (s, .obj r)
    | value => some (s, value)

/-- `clone_serializable`: the machine and the copy.  No more calls are nested than there are
objects. -/
def cloneSerializable (vm : VM) (value : Value) : Option (VM × Value) :=
  (cloneValue sizeof fmt (vm.objects.length + 1) ⟨vm, []⟩ value).map fun p => (p.1.vm, p.2)

end Clone

/-! ### Graphs of arrays and hashes -/

/-- The object a value refers to. -/
def ref? : Value → Option Ref
  | .obj r => some r
  | _ => none

/-- What is in a container, read through cells. -/
def contents (h : Heap) (r : Ref) : List Value :=
  match h.get? r with
  | some (.array a) => a.live.map h.dereferenceValue
  | some (.hash t) =>
    t.liveEntries.flatMap fun e => [h.dereferenceValue e.key, h.dereferenceValue e.value]
  | _ => []

/-- The objects in a container. -/
def successors (h : Heap) (r : Ref) : List Ref := (contents h r).filterMap ref?

/-- The object is part of the data structure that a value is. -/
def PartOf (h : Heap) (v : Value) : Ref → Prop :=
  Graph.Reach (successors h) {r | h.dereferenceValue v = .obj r}

/-- What a graph of scalars, strings, arrays and hashes is made of.  The keys of a hash are strings,
and its entries are numbered. -/
def IsData (fmt : Printf) (h : Heap) : Obj → Prop
  | .array a => a.count ≤ a.elements.length
  | .hash t => (∃ d, HashObj.Refines (HashObj.nameLabels fmt h) t d) ∧ ∃ es, HashObj.InOrder t es
  | .closure _ => False
  | .scalarCell _ _ => False
  | _ => True

/-- The value is a graph of scalars, strings, arrays and hashes. -/
def Serializable (fmt : Printf) (h : Heap) (v : Value) : Prop :=
  ∀ r, PartOf h v r → ∃ o, h.get? r = some o ∧ IsData fmt h o

/-- The value is an array or a hash. -/
def isContainer (h : Heap) : Value → Bool
  | .obj r => match h.get? r with
    | some (.array _) => true
    | some (.hash _) => true
    | _ => false
  | _ => false

/-- A value and its image: a container has the one that `R` gives it, and any other value is its
own. -/
inductive Image (h : Heap) (R : Ref → Ref → Prop) : Value → Value → Prop where
  | leaf {v : Value} (hv : isContainer h v = false) : Image h R v v
  | node {r r' : Ref} (hv : isContainer h (.obj r) = true) (hr : R r r') :
      Image h R (.obj r) (.obj r')

theorem Image.mono {h : Heap} {R R' : Ref → Ref → Prop} {v v' : Value} (hi : Image h R v v')
    (hR : ∀ r r', R r r' → R' r r') : Image h R' v v' := by
  cases hi with
  | leaf hv => exact .leaf hv
  | node hv hr => exact .node hv (hR _ _ hr)

/-! ### Heaps that grow -/

/-- The objects of a heap stay what they are. -/
structure Extends (h h' : Heap) : Prop where
  get? : ∀ {r o}, h.get? r = some o → h'.get? r = some o
  length : h.length ≤ h'.length

theorem Extends.refl (h : Heap) : Extends h h := ⟨fun hr => hr, Nat.le_refl _⟩

theorem Extends.trans {h h' h'' : Heap} (hh : Extends h h') (hh' : Extends h' h'') : Extends h h'' :=
  ⟨fun hr => hh'.get? (hh.get? hr), hh.length.trans hh'.length⟩

theorem Extends.keepsStrings {h h' : Heap} (hh : Extends h h') : HashObj.KeepsStrings h h' :=
  fun _ _ hr => hh.get? hr

section Heaps

variable {fmt : Printf} {h h' : Heap} {v₀ v w : Value} {r : Ref}

/-- The value is no cell, and what it refers to is there. -/
def Solid (h : Heap) (v : Value) : Prop :=
  h.isCell v = false ∧ ∀ r, v = .obj r → ∃ o, h.get? r = some o

theorem Extends.isCell (hh : Extends h h') (hv : Solid h v) : h'.isCell v = false := by
  obtain ⟨hcell, hlive⟩ := hv
  cases v with
  | obj r =>
    obtain ⟨o, ho⟩ := hlive r rfl
    rw [Heap.isCell_obj, ho] at hcell
    rw [Heap.isCell_obj, hh.get? ho]
    exact hcell
  | _ => rfl

theorem Extends.isContainer (hh : Extends h h') (hv : Solid h v) :
    Stdlib.isContainer h' v = Stdlib.isContainer h v := by
  cases v with
  | obj r =>
    obtain ⟨o, ho⟩ := hv.2 r rfl
    rw [Stdlib.isContainer, Stdlib.isContainer, ho, hh.get? ho]
  | _ => rfl

theorem derefLoop_cell {watch : Option Ref} (hr : h.get? r = some (.scalarCell v watch)) (n : ℕ) :
    h.derefLoop (n + 1) (.obj r) = h.derefLoop n v := by
  rw [Heap.derefLoop, hr]

theorem Extends.derefLoop (hh : Extends h h') {n m : ℕ} (hnm : n ≤ m)
    (hv : Solid h (h.derefLoop n v)) : h'.derefLoop m v = h.derefLoop n v := by
  induction n generalizing v m with
  | zero => exact Heap.derefLoop_of_not_cell (hh.isCell hv) m
  | succ n ih =>
    obtain ⟨m, rfl⟩ := Nat.exists_eq_succ_of_ne_zero (by omega : m ≠ 0)
    cases hcell : h.isCell v with
    | false =>
      rw [Heap.derefLoop_of_not_cell hcell] at hv ⊢
      exact Heap.derefLoop_of_not_cell (hh.isCell hv) _
    | true =>
      cases v with
      | obj r =>
        obtain ⟨x, w, hx⟩ := Heap.exists_of_isCell hcell
        rw [derefLoop_cell hx] at hv
        rw [derefLoop_cell hx, derefLoop_cell (hh.get? hx)]
        exact ih (by omega) hv
      | _ => cases hcell

/-- A value reads the same in the larger heap. -/
theorem Extends.dereferenceValue (hh : Extends h h') (hv : Solid h (h.dereferenceValue v)) :
    h'.dereferenceValue v = h.dereferenceValue v := hh.derefLoop hh.length hv

theorem extends_alloc (sizeof : ObjType → ℕ) (vm : VM) (o : Obj) :
    Extends vm.objects (vm.alloc sizeof o).1.objects :=
  ⟨fun ho => VM.alloc_get?_of_some vm sizeof o ho, Nat.le_succ _⟩

/-- What the value reads as is part of the data structure. -/
def Within (h : Heap) (v₀ v : Value) : Prop := ∀ r, h.dereferenceValue v = .obj r → PartOf h v₀ r

theorem within_self (h : Heap) (v : Value) : Within h v v := fun _ hr => .root hr

/-- What is in a container of the data structure is part of it. -/
theorem PartOf.within (hr : PartOf h v₀ r) (hv : h.dereferenceValue v ∈ contents h r) :
    Within h v₀ v := fun _ hq => hr.step (List.mem_filterMap.2 ⟨_, hv, by rw [hq]; rfl⟩)

theorem Serializable.solid (hser : Serializable fmt h v₀) (hv : Within h v₀ v) :
    Solid h (h.dereferenceValue v) := by
  cases hw : h.dereferenceValue v with
  | obj r =>
    obtain ⟨o, ho, hdata⟩ := hser r (hv r hw)
    refine ⟨?_, fun q hq => ⟨o, by cases hq; exact ho⟩⟩
    rw [Heap.isCell_obj, ho]
    cases o <;> first | rfl | exact absurd hdata id
  | _ => exact ⟨rfl, by rintro r ⟨⟩⟩

theorem mem_contents_array {a : ArrayObj} (hr : h.get? r = some (.array a)) (hv : v ∈ a.live) :
    h.dereferenceValue v ∈ contents h r := by
  rw [contents, hr]
  exact List.mem_map_of_mem hv

theorem mem_contents_hash {t : HashObj} {e : HashEntry} (hr : h.get? r = some (.hash t))
    (he : e ∈ t.liveEntries) : h.dereferenceValue e.key ∈ contents h r ∧
      h.dereferenceValue e.value ∈ contents h r := by
  rw [contents, hr]
  exact ⟨List.mem_flatMap.2 ⟨e, he, List.mem_cons_self⟩,
    List.mem_flatMap.2 ⟨e, he, List.mem_cons_of_mem _ List.mem_cons_self⟩⟩

end Heaps

/-! ### Filled copies -/

/-- The entries that are copied: the first ones, as many as are visible. -/
def walked (fmt : Printf) (h : Heap) (t : HashObj) : List HashEntry :=
  (t.inOrder fmt h).take t.visibleCount

/-- An entry and its copy. -/
def CopiedEntry (h : Heap) (R : Ref → Ref → Prop) (e e' : HashEntry) : Prop :=
  e'.key = e.key ∧ Image h R (h.dereferenceValue e.value) e'.value

/-- The container `r` of the heap `h` has a filled copy `r'` in the heap `h'`. -/
inductive Filled (fmt : Printf) (h h' : Heap) (R : Ref → Ref → Prop) (r r' : Ref) : Prop where
  | array {a a' : ArrayObj} (hr : h.get? r = some (.array a)) (hr' : h'.get? r' = some (.array a'))
      (hroom : a'.count ≤ a'.elements.length)
      (helements : List.Forall₂ (fun v v' => Image h R (h.dereferenceValue v) v') a.live a'.live)
  | hash {t t' : HashObj} {d : Bytes → Option Value} {es : List HashEntry}
      (hr : h.get? r = some (.hash t)) (hr' : h'.get? r' = some (.hash t'))
      (hmode : t'.orderMode = t.orderMode) (horder : HashObj.InOrder t' es)
      (hmap : HashObj.Refines (HashObj.nameLabels fmt h') t' d)
      (hentries : List.Forall₂ (CopiedEntry h R) (walked fmt h t) es)

theorem CopiedEntry.mono {h : Heap} {R R' : Ref → Ref → Prop} {e e' : HashEntry}
    (he : CopiedEntry h R e e') (hR : ∀ r r', R r r' → R' r r') : CopiedEntry h R' e e' :=
  ⟨he.1, he.2.mono hR⟩

/-- A copy stays filled as long as it is not written. -/
theorem Filled.mono {fmt : Printf} {h h' h'' : Heap} {R R' : Ref → Ref → Prop} {r r' : Ref}
    (hf : Filled fmt h h' R r r') (hR : ∀ r r', R r r' → R' r r')
    (hkeep : ∀ o, h'.get? r' = some o → h''.get? r' = some o)
    (hstrings : HashObj.KeepsStrings h' h'') : Filled fmt h h'' R' r r' := by
  cases hf with
  | array hr hr' hroom helements =>
    exact .array hr (hkeep _ hr') hroom (helements.imp fun _ _ hi => hi.mono hR)
  | hash hr hr' hmode horder hmap hentries =>
    exact .hash hr (hkeep _ hr') hmode horder (hmap.rename hstrings)
      (hentries.imp fun _ _ he => he.mono hR)

/-! ### What a part of the copying does -/

/-- The copy that the context gives a container. -/
def CloneState.Pairs (s : CloneState) (r r' : Ref) : Prop := (r, r') ∈ s.context

/-- The state in the course of copying the data structure that `v₀` is in the heap `h`. -/
structure Copying (h : Heap) (v₀ : Value) (s : CloneState) : Prop where
  grown : Extends h s.vm.objects
  sources : (s.context.map Prod.fst).Nodup
  copies : (s.context.map Prod.snd).Nodup
  source : ∀ r r', s.Pairs r r' → PartOf h v₀ r ∧ isContainer h (.obj r) = true
  copy : ∀ r r', s.Pairs r r' → h.get? r' = none ∧ ∃ o, s.vm.objects.get? r' = some o

/-- The work from one state to another that writes, of the objects there are, those in `C` only. -/
structure Grows (fmt : Printf) (h : Heap) (v₀ : Value) (C : Ref → Prop) (s s' : CloneState) :
    Prop where
  copying : Copying h v₀ s'
  keeps : ∀ r o, ¬ C r → s.vm.objects.get? r = some o → s'.vm.objects.get? r = some o
  strings : HashObj.KeepsStrings s.vm.objects s'.vm.objects
  new : ∃ new, s'.context = s.context ++ new ∧
    ∀ p ∈ new, Filled fmt h s'.vm.objects s'.Pairs p.1 p.2

section Grows

variable {fmt : Printf} {h : Heap} {v₀ v : Value} {C : Ref → Prop} {s s' s'' : CloneState}
  {r r' copy : Ref}

theorem Grows.refl (hs : Copying h v₀ s) : Grows fmt h v₀ C s s :=
  ⟨hs, fun _ _ _ hr => hr, .refl _, [], (List.append_nil _).symm, by simp⟩

theorem Grows.pairs (hg : Grows fmt h v₀ C s s') (hr : s.Pairs r r') : s'.Pairs r r' := by
  obtain ⟨new, hnew, -⟩ := hg.new
  rw [CloneState.Pairs, hnew]
  exact List.mem_append_left _ hr

theorem Grows.length_le (hg : Grows fmt h v₀ C s s') : s.context.length ≤ s'.context.length := by
  obtain ⟨new, hnew, -⟩ := hg.new
  rw [hnew, List.length_append]
  exact Nat.le_add_right _ _

theorem Grows.weaken (hg : Grows fmt h v₀ (fun _ => False) s s') : Grows fmt h v₀ C s s' :=
  ⟨hg.copying, fun r o _ hr => hg.keeps r o id hr, hg.strings, hg.new⟩

theorem Grows.trans (hC : ∀ q, C q → ∃ r, s.Pairs r q) (hg : Grows fmt h v₀ C s s')
    (hg' : Grows fmt h v₀ C s' s'') : Grows fmt h v₀ C s s'' := by
  obtain ⟨new, hnew, hfilled⟩ := hg.new
  obtain ⟨new', hnew', hfilled'⟩ := hg'.new
  refine ⟨hg'.copying, fun r o hr ho => hg'.keeps r o hr (hg.keeps r o hr ho),
    hg.strings.trans hg'.strings, new ++ new', by rw [hnew', hnew, List.append_assoc], ?_⟩
  intro p hp
  rcases List.mem_append.1 hp with hp | hp
  · have hpair : s'.Pairs p.1 p.2 := by
      rw [CloneState.Pairs, hnew]
      exact List.mem_append_right _ hp
    -- the copy is new, so it is none of those that are written
    have hfree : ¬ C p.2 := by
      intro hc
      obtain ⟨r, hr⟩ := hC _ hc
      have hnodup := hg.copying.copies
      rw [hnew, List.map_append, List.nodup_append] at hnodup
      exact hnodup.2.2 _ (List.mem_map_of_mem hr) _ (List.mem_map_of_mem hp) rfl
    exact (hfilled p hp).mono (fun _ _ hr => hg'.pairs hr) (fun o ho => hg'.keeps _ o hfree ho)
      hg'.strings
  · exact hfilled' p hp

/-- A copy is written. -/
theorem grows_write {vm : VM} {o o' : Obj} (hs : Copying h v₀ s) (hr : s.Pairs r copy)
    (ho : s.vm.objects.get? copy = some o) (hno : ∀ t, o ≠ .string t)
    (hvm : vm.objects = s.vm.objects.set copy o') :
    Grows fmt h v₀ (· = copy) s ⟨vm, s.context⟩ ∧ vm.objects.get? copy = some o' := by
  have hself : vm.objects.get? copy = some o' := by
    rw [hvm, Heap.get?_set_self (by rw [ho]; rfl)]
  have hother : ∀ {q}, q ≠ copy → vm.objects.get? q = s.vm.objects.get? q := by
    intro q hq
    rw [hvm, Heap.get?_set_ne hq.symm]
  refine ⟨⟨⟨⟨fun {q _} hq => ?_, ?_⟩, hs.sources, hs.copies, hs.source, ?_⟩, ?_, ?_,
    [], (List.append_nil _).symm, by simp⟩, hself⟩
  · have hne : q ≠ copy := by
      rintro rfl
      rw [(hs.copy _ _ hr).1] at hq
      cases hq
    rw [hother hne]
    exact hs.grown.get? hq
  · rw [hvm, Heap.length_set]
    exact hs.grown.length
  · intro q q' hq
    obtain ⟨hfree, x, hx⟩ := hs.copy q q' hq
    refine ⟨hfree, ?_⟩
    by_cases hne : q' = copy
    · exact ⟨o', hne ▸ hself⟩
    · exact ⟨x, (hother hne).trans hx⟩
  · exact fun q x hq hx => (hother hq).trans hx
  · intro q t hq
    refine (hother ?_).trans hq
    rintro rfl
    exact hno t (Option.some.inj (ho.symm.trans hq))

theorem grows_push (fmt : Printf) {a : ArrayObj} (hs : Copying h v₀ s) (hr : s.Pairs r copy)
    (ha : s.vm.objects.get? copy = some (.array a)) (v : Value) :
    Grows fmt h v₀ (· = copy) s (s.push copy v) ∧
      (s.push copy v).vm.objects.get? copy = some (.array (a.push v)) := by
  have heq : s.push copy v = ⟨s.vm.setObj copy (.array (a.push v)), s.context⟩ := by
    rw [CloneState.push, ha]
  rw [heq]
  exact grows_write hs hr ha (by rintro t ⟨⟩) rfl

theorem grows_set (fmt : Printf) {t : HashObj} (hs : Copying h v₀ s) (hr : s.Pairs r copy)
    (ht : s.vm.objects.get? copy = some (.hash t)) (key value : Value) :
    Grows fmt h v₀ (· = copy) s (s.set fmt copy key value) ∧
      (s.set fmt copy key value).vm.objects.get? copy =
        some (.hash (t.set fmt s.vm.objects key value)) := by
  refine grows_write hs hr ht (by rintro x ⟨⟩) ?_
  simp only [VM.push_objects, ht, VM.pop_objects]
  simp only [VM.setObj, VM.push_objects]

/-- A container is met: it gets a copy at a new address. -/
theorem copying_add (sizeof : ObjType → ℕ) (hs : Copying h v₀ s) (hpart : PartOf h v₀ r)
    (hcont : isContainer h (.obj r) = true) (hnew : s.context.lookup r = none) (o : Obj) :
    ∃ s₁ copy, s.add sizeof r o = (s₁, copy) ∧ Copying h v₀ s₁ ∧
      s₁.context = s.context ++ [(r, copy)] ∧ s₁.vm.objects.get? copy = some o ∧
      s.vm.objects.get? copy = none ∧ Extends s.vm.objects s₁.vm.objects := by
  obtain ⟨vm, copy, halloc, hvm⟩ := VM.exists_allocates sizeof s.vm o
  have hext : Extends s.vm.objects vm.objects := by
    have hext := extends_alloc sizeof s.vm o
    rwa [halloc] at hext
  have hfree : s.vm.objects.get? copy = none := by
    cases hc : s.vm.objects.get? copy with
    | none => rfl
    | some x => exact absurd rfl (hvm.others hc).2
  have hfree' : h.get? copy = none := by
    cases hc : h.get? copy with
    | none => rfl
    | some x => rw [hs.grown.get? hc] at hfree; cases hfree
  refine ⟨⟨vm, s.context ++ [(r, copy)]⟩, copy, by rw [CloneState.add, halloc],
    ⟨hs.grown.trans hext, ?_, ?_, ?_, ?_⟩, rfl, hvm.self, hfree, hext⟩
  · rw [List.map_append, List.nodup_append]
    refine ⟨hs.sources, List.nodup_singleton _, ?_⟩
    rintro q hq q' hq' rfl
    rw [List.map_singleton, List.mem_singleton] at hq'
    obtain ⟨p, hp, rfl⟩ := List.mem_map.1 hq
    have hne := List.lookup_eq_none_iff.1 hnew p hp
    rw [hq'] at hne
    simp at hne
  · rw [List.map_append, List.nodup_append]
    refine ⟨hs.copies, List.nodup_singleton _, ?_⟩
    rintro q hq q' hq' rfl
    rw [List.map_singleton, List.mem_singleton] at hq'
    obtain ⟨⟨r', q⟩, hp, rfl⟩ := List.mem_map.1 hq
    obtain ⟨-, x, hx⟩ := hs.copy r' q hp
    rw [show q = copy from hq', hfree] at hx
    cases hx
  · intro q q' hq
    rcases List.mem_append.1 hq with hq | hq
    · exact hs.source q q' hq
    · cases List.mem_singleton.1 hq
      exact ⟨hpart, hcont⟩
  · intro q q' hq
    rcases List.mem_append.1 hq with hq | hq
    · obtain ⟨hq', x, hx⟩ := hs.copy q q' hq
      exact ⟨hq', x, hext.get? hx⟩
    · cases List.mem_singleton.1 hq
      exact ⟨hfree', o, hvm.self⟩

/-- When the work on its contents is done the container has a filled copy, and nothing else that was
there has changed. -/
theorem Grows.close {s₁ : CloneState} (hctx : s₁.context = s.context ++ [(r, copy)])
    (hfree : s.vm.objects.get? copy = none) (hext : Extends s.vm.objects s₁.vm.objects)
    (hg : Grows fmt h v₀ (· = copy) s₁ s')
    (hfilled : Filled fmt h s'.vm.objects s'.Pairs r copy) : Grows fmt h v₀ C s s' := by
  obtain ⟨new, hnew, hall⟩ := hg.new
  refine ⟨hg.copying, ?_, hext.keepsStrings.trans hg.strings, (r, copy) :: new, ?_, ?_⟩
  · intro q o _ ho
    refine hg.keeps q o ?_ (hext.get? ho)
    rintro rfl
    rw [hfree] at ho
    cases ho
  · rw [hnew, hctx, List.append_assoc]
    rfl
  · intro p hp
    rcases List.mem_cons.1 hp with rfl | hp
    · exact hfilled
    · exact hall p hp

end Grows

/-! ### The loops -/

/-- What a call of `clone_serializable_value` does, as long as fewer than `n` containers are left to
be met. -/
def Clones (fmt : Printf) (h : Heap) (v₀ : Value) (n : ℕ)
    (clone : CloneState → Value → Option (CloneState × Value)) : Prop :=
  ∀ s v, Copying h v₀ s → h.length < n + s.context.length → Within h v₀ v →
    ∃ s' v', clone s v = some (s', v') ∧ Grows fmt h v₀ (fun _ => False) s s' ∧
      Image h s'.Pairs (h.dereferenceValue v) v'

section Loops

variable {fmt : Printf} {h : Heap} {v₀ v : Value} {s : CloneState} {r copy : Ref} {n : ℕ}
  {clone : CloneState → Value → Option (CloneState × Value)}

/-- The loop over the elements of an array appends their images to the copy. -/
theorem cloneElements_grows (hclone : Clones fmt h v₀ n clone) {vs : List Value} {a : ArrayObj}
    (hs : Copying h v₀ s) (hn : h.length < n + s.context.length) (hvs : ∀ v ∈ vs, Within h v₀ v)
    (hr : s.Pairs r copy) (ha : s.vm.objects.get? copy = some (.array a))
    (hroom : a.count ≤ a.elements.length) :
    ∃ s' a' vs', cloneElements clone copy vs s = some s' ∧ Grows fmt h v₀ (· = copy) s s' ∧
      s'.vm.objects.get? copy = some (.array a') ∧ a'.count ≤ a'.elements.length ∧
      a'.live = a.live ++ vs' ∧
      List.Forall₂ (fun v v' => Image h s'.Pairs (h.dereferenceValue v) v') vs vs' := by
  induction vs generalizing s a with
  | nil => exact ⟨s, a, [], rfl, .refl hs, ha, hroom, (List.append_nil _).symm, .nil⟩
  | cons v vs ih =>
    obtain ⟨s₁, v', hv, hg₁, himage⟩ := hclone s v hs hn (hvs v List.mem_cons_self)
    have hr₁ := hg₁.pairs hr
    obtain ⟨hg₂, ha₂⟩ := grows_push fmt hg₁.copying hr₁ (hg₁.keeps _ _ id ha) v'
    have hlen := hg₁.length_le
    obtain ⟨s', a', vs', hloop, hg₃, ha', hroom', hlive, himages⟩ := ih hg₂.copying
      (Nat.lt_of_lt_of_le hn (Nat.add_le_add_left (hlen.trans hg₂.length_le) n))
      (fun w hw => hvs w (List.mem_cons_of_mem v hw)) (hg₂.pairs hr₁) ha₂
      (ArrayObj.count_le_push v')
    have hC : ∀ q, q = copy → ∃ r, s.Pairs r q := fun q hq => ⟨r, hq ▸ hr⟩
    have hC₁ : ∀ q, q = copy → ∃ r, s₁.Pairs r q := fun q hq => ⟨r, hq ▸ hr₁⟩
    refine ⟨s', a', v' :: vs', ?_, hg₁.weaken.trans hC (hg₂.trans hC₁ hg₃), ha', hroom', ?_, ?_⟩
    · rw [cloneElements, hv]
      exact hloop
    · rw [hlive, ArrayObj.live_push hroom, List.append_assoc]
      rfl
    · exact .cons (himage.mono fun _ _ hq => hg₃.pairs (hg₂.pairs hq)) himages

/-- A name is its own image. -/
theorem Image.name {R : Ref → Ref → Prop} {key v' : Value} {name : Bytes}
    (hkey : HashObj.nameText h key = some name) (hi : Image h R (h.dereferenceValue key) v') :
    v' = key := by
  obtain ⟨r, x, rfl, hr, -⟩ := HashObj.nameText_eq_some.1 hkey
  rw [Heap.dereferenceValue_of_not_cell (by rw [Heap.isCell_obj, hr])] at hi
  cases hi with
  | leaf hv => rfl
  | node hv hR =>
    rw [isContainer, hr] at hv
    cases hv

/-- The order of a table is the same in a larger heap. -/
theorem orderedIndex_extends {h' : Heap} {t : HashObj} (hh : HashObj.KeepsStrings h h')
    (hnames : ∀ e ∈ t.liveEntries, ∃ name, HashObj.nameText h e.key = some name) (i : ℤ) :
    t.orderedIndex fmt h' i = t.orderedIndex fmt h i := by
  refine HashObj.orderedIndex_congr (fun e he => ?_) i
  obtain ⟨name, hname⟩ := hnames e he
  rw [HashObj.keyRepr_of_nameText hname, HashObj.keyRepr_of_nameText (hh.nameText hname)]

/-- The loop over the ordinals of a table appends the copies of the entries to the copy. -/
theorem cloneEntries_grows (hclone : Clones fmt h v₀ n clone) {source c : HashObj}
    {ordinals : List ℕ} {es fs : List HashEntry} {d : Bytes → Option Value}
    (hnames : ∀ e ∈ source.liveEntries, ∃ name, HashObj.nameText h e.key = some name)
    (hordinals : List.Forall₂ (fun (i : ℕ) e => ∃ p, source.orderedIndex fmt h i = some p ∧
      source.entries.getD p {} = e) ordinals es)
    (hes : ∀ e ∈ es, e ∈ source.liveEntries ∧ Within h v₀ e.key ∧ Within h v₀ e.value)
    (hfs : ∀ e ∈ fs, ∃ name, HashObj.nameText h e.key = some name)
    (hnodup : ((fs ++ es).map fun e => HashObj.nameText h e.key).Nodup)
    (hs : Copying h v₀ s) (hn : h.length < n + s.context.length) (hr : s.Pairs r copy)
    (hc : s.vm.objects.get? copy = some (.hash c)) (ho : HashObj.InOrder c fs)
    (hd : HashObj.Refines (HashObj.nameLabels fmt s.vm.objects) c d) :
    ∃ s' c' d' es', cloneEntries fmt clone source copy ordinals s = some s' ∧
      Grows fmt h v₀ (· = copy) s s' ∧ s'.vm.objects.get? copy = some (.hash c') ∧
      HashObj.InOrder c' (fs ++ es') ∧
      HashObj.Refines (HashObj.nameLabels fmt s'.vm.objects) c' d' ∧
      c'.orderMode = c.orderMode ∧ List.Forall₂ (CopiedEntry h s'.Pairs) es es' := by
  induction hordinals generalizing s fs c d with
  | nil =>
    exact ⟨s, c, d, [], rfl, .refl hs, hc, by rwa [List.append_nil], hd, rfl, .nil⟩
  | @cons i e ordinals es hi hrest ih =>
    obtain ⟨p, hp, rfl⟩ := hi
    generalize he : source.entries.getD p {} = e at hes hnodup
    obtain ⟨hlive, hkey, hvalue⟩ := hes e List.mem_cons_self
    obtain ⟨name, hname⟩ := hnames e hlive
    have hp' := (orderedIndex_extends hs.grown.keepsStrings hnames i).trans hp
    -- the key and the value are copied
    obtain ⟨s₁, key', heq₁, hg₁, himage₁⟩ := hclone s e.key hs hn hkey
    obtain rfl := himage₁.name hname
    obtain ⟨s₂, value', heq₂, hg₂, himage₂⟩ := hclone s₁ e.value hg₁.copying
      (Nat.lt_of_lt_of_le hn (Nat.add_le_add_left hg₁.length_le n)) hvalue
    have hC : ∀ {s' : CloneState}, s'.Pairs r copy → ∀ q, q = copy → ∃ r, s'.Pairs r q :=
      fun hpair q hq => ⟨r, hq ▸ hpair⟩
    have hg₁₂ : Grows fmt h v₀ (· = copy) s s₂ := hg₁.weaken.trans (hC hr) hg₂.weaken
    have hr₂ := hg₁₂.pairs hr
    have hc₂ := hg₂.keeps _ _ id (hg₁.keeps _ _ id hc)
    have hd₂ := hd.rename hg₁₂.strings
    have hname₂ := hg₁₂.copying.grown.keepsStrings.nameText hname
    -- the name is a new one
    have hnone : d name = none := by
      cases hdn : d name with
      | none => rfl
      | some v =>
        obtain ⟨y, hy, hyname, -⟩ := (hd₂.dict name v).1 hdn
        have hyfs := ho.perm.mem_iff.2 hy
        obtain ⟨name', hname'⟩ := hfs y hyfs
        have hsame := (hg₁₂.copying.grown.keepsStrings.nameText hname').symm.trans hyname
        rw [List.map_append, List.nodup_append] at hnodup
        refine absurd ?_ (hnodup.2.2 _ (List.mem_map_of_mem hyfs) _
          (List.mem_map_of_mem List.mem_cons_self))
        rw [hname', hsame, hname]
    obtain ⟨⟨k, ho₃⟩, hmode₃⟩ := ho.set_name hd₂ hname₂ hnone value'
    have hd₃ := hd₂.set_name hname₂ value'
    obtain ⟨hg₃, hc₃⟩ := grows_set fmt hg₁₂.copying hr₂ hc₂ e.key value'
    have hg := hg₁₂.trans (hC hr) hg₃
    obtain ⟨s', c', d', es', hloop, hg₄, hc', ho', hd', hmode', hentries⟩ := ih
      (fun y hy => hes y (List.mem_cons_of_mem e hy))
      (by
        intro y hy
        rcases List.mem_append.1 hy with hy | hy
        · exact hfs y hy
        · rw [List.mem_singleton.1 hy]
          exact ⟨name, hname⟩)
      (by
        simp only [List.map_append, List.append_assoc, List.map_cons, List.singleton_append]
          at hnodup ⊢
        exact hnodup) hg₃.copying
      (Nat.lt_of_lt_of_le hn (Nat.add_le_add_left hg.length_le n)) (hg.pairs hr) hc₃ ho₃
      (hd₃.rename hg₃.strings)
    refine ⟨s', c', d', ⟨e.key, value', k⟩ :: es', ?_, hg.trans (hC hr) hg₄, hc', ?_, hd',
      hmode'.trans hmode₃, .cons ⟨rfl, himage₂.mono fun _ _ hq => hg₄.pairs (hg₃.pairs hq)⟩ hentries⟩
    · rw [cloneEntries, hp']
      simp only [he, heq₁, heq₂, Option.bind_eq_bind, Option.bind_some]
      exact hloop
    · rwa [List.append_assoc] at ho'

end Loops

/-! ### The whole copying -/

section Whole

variable {fmt : Printf} {h : Heap} {v₀ v : Value} {s : CloneState} {r : Ref} {t : HashObj}
  {es : List HashEntry} {d : Bytes → Option Value}

theorem inOrder_perm (fmt : Printf) (h : Heap) (ho : HashObj.InOrder t es) :
    (t.inOrder fmt h).Perm t.liveEntries := by
  rw [← HashObj.map_slots]
  exact (HashObj.ordered_spec fmt h ho.sized ho.nodup_sequence).2.1.map _

theorem visibleCount_le (ho : HashObj.InOrder t es) : t.visibleCount ≤ t.count := by
  rw [ho.sized.count]
  unfold HashObj.visibleCount
  rw [HashObj.liveEntries, Table.live, ← List.countP_eq_length_filter]
  refine List.countP_mono_left fun e _ he => ?_
  simp only [Bool.and_eq_true, Bool.not_eq_true', decide_eq_false_iff_not] at he
  simpa [HashEntry.mark_eq_live] using he.1

theorem length_walked (fmt : Printf) (h : Heap) (ho : HashObj.InOrder t es) :
    (walked fmt h t).length = t.visibleCount := by
  rw [walked, List.length_take, (inOrder_perm fmt h ho).length_eq, ← ho.sized.count,
    Nat.min_eq_left (visibleCount_le ho)]

theorem mem_of_walked (ho : HashObj.InOrder t es) {e : HashEntry} (he : e ∈ walked fmt h t) :
    e ∈ t.liveEntries := (inOrder_perm fmt h ho).mem_iff.1 (List.mem_of_mem_take he)

/-- The ordinals of the loop give the entries that are copied. -/
theorem walked_ordinals (fmt : Printf) (h : Heap) (ho : HashObj.InOrder t es) :
    List.Forall₂ (fun (i : ℕ) e => ∃ p, t.orderedIndex fmt h i = some p ∧ t.entries.getD p {} = e)
      (List.range t.visibleCount) (walked fmt h t) := by
  obtain ⟨hindex, hperm, -⟩ := HashObj.ordered_spec fmt h ho.sized ho.nodup_sequence
  refine List.forall₂_iff_get.2 ⟨by rw [List.length_range, length_walked fmt h ho], ?_⟩
  intro i hi hi'
  have hcount : i < t.count := by
    rw [List.length_range] at hi
    exact Nat.lt_of_lt_of_le hi (visibleCount_le ho)
  have hlen : i < (HashObj.ordered fmt h t).length := by
    rwa [hperm.length_eq, ho.sized.length_slots]
  refine ⟨(HashObj.ordered fmt h t)[i], ?_, ?_⟩
  · rw [List.get_eq_getElem, List.getElem_range, hindex i hcount, List.getElem?_eq_getElem hlen]
  · simp only [walked, HashObj.inOrder, List.get_eq_getElem, List.getElem_take, List.getElem_map]

/-- No two entries that are copied have one name. -/
theorem nodup_walked (ho : HashObj.InOrder t es)
    (hd : HashObj.Refines (HashObj.nameLabels fmt h) t d) :
    ((walked fmt h t).map fun e => HashObj.nameText h e.key).Nodup :=
  ((((inOrder_perm fmt h ho).map _).nodup_iff.2 hd.distinct).sublist
    ((List.take_sublist _ _).map _))

theorem Copying.length_le (hs : Copying h v₀ s) : s.context.length ≤ h.length := by
  rw [← List.length_map Prod.fst, ← List.length_map (fun c : HeapCell => c.ref)]
  refine (List.subperm_of_subset hs.sources fun q hq => ?_).length_le
  obtain ⟨⟨q, q'⟩, hp, rfl⟩ := List.mem_map.1 hq
  have hcont := (hs.source q q' hp).2
  rw [isContainer] at hcont
  cases ho : h.get? q with
  | none => rw [ho] at hcont; cases hcont
  | some o =>
    obtain ⟨c, hc, rfl, -⟩ := Heap.exists_mem_of_get? ho
    exact List.mem_map_of_mem hc

theorem isContainer_array {a : ArrayObj} (hr : h.get? r = some (.array a)) :
    isContainer h (.obj r) = true := by rw [isContainer, hr]

theorem isContainer_hash (hr : h.get? r = some (.hash t)) : isContainer h (.obj r) = true := by
  rw [isContainer, hr]

/-- **The law of the copying.**  A call ends with the image of its value: every container met on the
way has a filled copy, and nothing that was there is written. -/
theorem cloneValue_clones (sizeof : ObjType → ℕ) (hser : Serializable fmt h v₀) (n : ℕ) :
    Clones fmt h v₀ n (cloneValue sizeof fmt n) := by
  induction n with
  | zero =>
    intro s v hs hn _
    have hle := hs.length_le
    omega
  | succ n ih =>
    intro s v hs hn hv
    have hsolid := hser.solid hv
    rw [cloneValue, hs.grown.dereferenceValue hsolid]
    cases hw : h.dereferenceValue v with
    | obj r =>
      have hpart := hv r hw
      obtain ⟨o, ho, hdata⟩ := hser r hpart
      have ho' := hs.grown.get? ho
      cases hlook : s.context.lookup r with
      | some copy =>
        have hpair : s.Pairs r copy := by
          obtain ⟨l₁, l₂, heq, -⟩ := List.lookup_eq_some_iff.1 hlook
          rw [CloneState.Pairs, heq]
          exact List.mem_append_right _ List.mem_cons_self
        simp only [hlook]
        exact ⟨s, .obj copy, rfl, .refl hs, .node (hs.source r copy hpair).2 hpair⟩
      | none =>
        simp only [hlook, ho']
        cases o with
        | array a =>
          obtain ⟨s₁, copy, hadd, hs₁, hctx, hcopy, hfree, hext⟩ :=
            copying_add sizeof hs hpart (isContainer_array ho) hlook (.array {})
          have hpair : s₁.Pairs r copy := by
            rw [CloneState.Pairs, hctx]
            exact List.mem_append_right _ List.mem_cons_self
          obtain ⟨s', a', vs', hloop, hg, ha', hroom, hlive, himages⟩ := cloneElements_grows ih hs₁
            (by rw [hctx, List.length_append, List.length_singleton]; omega)
            (fun w hw => hpart.within (mem_contents_array ho hw)) hpair hcopy (Nat.le_refl 0)
          simp only [hadd, hloop, Option.map_some]
          refine ⟨s', .obj copy, rfl, hg.close hctx hfree hext (.array ho ha' hroom ?_),
            .node (isContainer_array ho) (hg.pairs hpair)⟩
          rwa [hlive]
        | hash t =>
          obtain ⟨⟨d, hd⟩, fs, hfs⟩ := hdata
          have hnone : ∀ e ∈ ([] : List HashEntry), ∃ name, HashObj.nameText h e.key = some name := by
            simp
          obtain ⟨s₁, copy, hadd, hs₁, hctx, hcopy, hfree, hext⟩ :=
            copying_add sizeof hs hpart (isContainer_hash ho) hlook
              (.hash { orderMode := t.orderMode })
          have hpair : s₁.Pairs r copy := by
            rw [CloneState.Pairs, hctx]
            exact List.mem_append_right _ List.mem_cons_self
          obtain ⟨s', c', d', es', hloop, hg, hc', hes', hd', hmode, hentries⟩ :=
            cloneEntries_grows ih
              (fun e he => Option.isSome_iff_exists.1 (hd.label e he)) (walked_ordinals fmt h hfs)
              (fun e he => by
                have hlive := mem_of_walked hfs he
                obtain ⟨hk, hv⟩ := mem_contents_hash ho hlive
                exact ⟨hlive, hpart.within hk, hpart.within hv⟩)
              hnone (nodup_walked hfs hd) hs₁
              (by rw [hctx, List.length_append, List.length_singleton]; omega) hpair hcopy
              ⟨⟨.inl rfl, rfl⟩, List.Perm.refl _, List.Pairwise.nil, by simp⟩
              (HashObj.Refines.empty rfl rfl)
          simp only [hadd, hloop, Option.map_some]
          exact ⟨s', .obj copy, rfl, hg.close hctx hfree hext (.hash ho hc' hmode hes' hd' hentries),
            .node (isContainer_hash ho) (hg.pairs hpair)⟩
        | closure c => exact absurd hdata id
        | _ =>
          refine ⟨s, .obj r, rfl, .refl hs, .leaf ?_⟩
          rw [isContainer, ho]
    | _ => exact ⟨s, _, rfl, .refl hs, .leaf rfl⟩

end Whole

end Stdlib

end Slp
