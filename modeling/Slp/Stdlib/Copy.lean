import Mathlib.Data.List.InsertIdx
import Slp.Object.Assigned
import Slp.Vm.Bounded

/-!
# Copies

`copy`, `concat`, `putAll` into a fresh array and the making of an array from elements that were read.
The first three push the elements as they are, scalar cells among them; a copy of a hash stores the
values of its entries.

An assignment to an element that is a cell goes into the cell (`writeElement`), while one to a key
replaces the entry.  So a copy of a hash is always independent, and one of an array when it has no
cell:

* `Use`: index assignments, lookups and removals through one container;
* `SameReading`: nothing changes of what is read from a container;
* `Independent`: along any run of uses of the copy and the original, a use of one changes nothing that
  is read from the other;
* `independent_iff`: **a copy is independent of what it was made from exactly if no element of that is
  a cell.**
-/

namespace Slp

/-- How a copy is made, and of what. -/
inductive CopyOp where
  | copy (r : Ref)
  | concat (args : List Value)
  | putAll (r : Ref)
  | construct (r : Ref)

namespace Heap

/-- The address of an array that is an argument. -/
def arrayArg? (h : Heap) : Value → Option Ref
  | .obj r => if (h.array? r).isSome then some r else none
  | _ => none

/-- The value at a key of a hash, as `slp_obj_hash_set` stores it in the copy. -/
def copyOrdinal? (fmt : Printf) (h : Heap) (t dst : HashObj) (ordinal : ℕ) : Option HashObj :=
  match HashObj.orderedIndex fmt h t ordinal with
  | some p => HashObj.set? fmt h dst (t.keyAt p) (t.entries.getD p {}).value
  | none => some dst

/-- The hash that `builtin_copy` makes. -/
def copyHash? (fmt : Printf) (h : Heap) (t : HashObj) : Option HashObj :=
  (List.range t.count).foldlM (copyOrdinal? fmt h t)
    { orderMode := t.orderMode, missPolicy := t.missPolicy, removalPolicy := t.removalPolicy }

/-- What `builtin_concat` pushes for an argument. -/
def concatItems (h : Heap) (arg : Value) : List Value :=
  match h.arrayArg? arg with
  | some r => h.live r
  | none => [arg]

/-- `builtin_copy` of an array or a hash, `builtin_concat`, `builtin_putAll` into a fresh array, and
`native_array` on the elements read from an array: the heap, and the address of what was made. -/
def copied? (fmt : Printf) (h : Heap) : CopyOp → Option (Heap × Ref)
  | .copy r => match h.get? r with
    | some (.array a) =>
      some (⟨h.freshRef, false, .array (a.live.foldl ArrayObj.push {})⟩ :: h, h.freshRef)
    | some (.hash t) =>
      (copyHash? fmt h t).map fun t' => (⟨h.freshRef, false, .hash t'⟩ :: h, h.freshRef)
    | _ => none
  | .concat args =>
    some (⟨h.freshRef, false, .array ((args.flatMap h.concatItems).foldl ArrayObj.push {})⟩ :: h,
      h.freshRef)
  | .putAll r => (h.array? r).map fun a =>
    -- the values are collected in an array of their own first
    let values := a.live.foldl ArrayObj.push {}
    (⟨h.freshRef, false, .array (values.live.foldl ArrayObj.push {})⟩ :: h, h.freshRef)
  | .construct r => (h.array? r).map fun _ =>
    (⟨h.freshRef, false, .array ((h.shown r).foldl ArrayObj.push {})⟩ :: h, h.freshRef)

/-- What a copy is made of. -/
def originals (h : Heap) : CopyOp → List Ref
  | .copy r => [r]
  | .concat args => args.filterMap h.arrayArg?
  | .putAll r => [r]
  | .construct r => [r]

/-- The values are values of the language: what is read is no cell, and neither is an argument. -/
def CopyFits (h : Heap) : CopyOp → Prop
  | .copy r => ∀ x ∈ h.live r, h.Known x
  | .concat args => ∀ arg ∈ args, match h.arrayArg? arg with
    | some r => ∀ x ∈ h.live r, h.Known x
    | none => h.Plain arg
  | .putAll r => ∀ x ∈ h.live r, h.Known x
  | .construct r => ∀ x ∈ h.live r, h.Plain (h.read x)

/-- No element that is copied as it is is a cell. -/
def CellFree (h : Heap) : CopyOp → Prop
  | .construct _ => True
  | op => ∀ r ∈ h.originals op, ∀ x ∈ h.live r, h.cell? x = none

/-! ### Uses -/

/-- The heap has got new objects. -/
structure Extends (h h' : Heap) : Prop where
  kept : ∀ q, q < h.freshRef → h'.get? q = h.get? q
  fresh : h.freshRef ≤ h'.freshRef
  orderly : Orderly h → Orderly h'

/-- A policy that is asked answers, and changes nothing but the hash it is asked about. -/
def PolicyKeeps (call : HashObj.PolicyCall) : Prop :=
  ∀ (r : Ref) (message : Bytes) (args : List Value) (h : Heap) (t : HashObj),
    Extends h (call r message args h t).1

/-- Index assignments, lookups and removals through the container at `q`. -/
inductive Use (fmt : Printf) (call : HashObj.PolicyCall) (q : Ref) : Heap → Heap → Prop where
  | set {h : Heap} (index : ℤ) (v : Value) (hv : h.Plain v) :
      Use fmt call q h (h.change q (.set index v))
  | removeAt {h : Heap} (index : ℤ) : Use fmt call q h (h.change q (.removeAt index))
  | pop {h : Heap} : Use fmt call q h (h.change q .pop)
  | store {h h' : Heap} {t t' : HashObj} {stored : Bool} (raw v : Value)
      (ht : h.get? q = some (.hash t))
      (hset : HashObj.hashSetCanonical? fmt call h t raw v = some (h', t', stored)) :
      Use fmt call q h (h'.set q (.hash t'))
  | find {h h' : Heap} {t t' : HashObj} {v : Value} (key raw : Value)
      (ht : h.get? q = some (.hash t))
      (hget : HashObj.hashGet? fmt call h t key raw = some (h', t', v)) :
      Use fmt call q h (h'.set q (.hash t'))
  | delete {h : Heap} {t : HashObj} (raw : Value) (ht : h.get? q = some (.hash t)) :
      Use fmt call q h (h.set q (.hash (HashObj.delete fmt h t raw).1))

/-- Runs of uses of two containers; in between new objects are made. -/
inductive Uses (fmt : Printf) (call : HashObj.PolicyCall) (d r : Ref) : Heap → Heap → Prop where
  | refl (h : Heap) : Uses fmt call d r h h
  | extend {h h' h'' : Heap} (huses : Uses fmt call d r h h') (hextends : Extends h' h'') :
      Uses fmt call d r h h''
  | copy {h h' h'' : Heap} (huses : Uses fmt call d r h h') (huse : Use fmt call d h' h'') :
      Uses fmt call d r h h''
  | original {h h' h'' : Heap} (huses : Uses fmt call d r h h') (huse : Use fmt call r h' h'') :
      Uses fmt call d r h h''

/-- Nothing changes of what is read from the container at `q`: its elements or its table are what they
were, and the cells among its elements and values have the content they had. -/
structure SameReading (h h' : Heap) (q : Ref) : Prop where
  elements : h'.live q = h.live q
  table : ∀ t, h.get? q = some (.hash t) → h'.get? q = some (.hash t)
  contents : ∀ c, (h.cell? (.obj c)).isSome →
    (Value.obj c ∈ h.live q ∨ ∃ t, h.get? q = some (.hash t) ∧ ∃ e ∈ t.entries, e.value = .obj c) →
    h'.cell? (.obj c) = h.cell? (.obj c)

/-- Along any run of uses of the two containers, a use of one changes nothing that is read from the
other. -/
def Independent (fmt : Printf) (call : HashObj.PolicyCall) (h₀ : Heap) (d r : Ref) : Prop :=
  ∀ h h', Uses fmt call d r h₀ h →
    (Use fmt call d h h' → SameReading h h' r) ∧ (Use fmt call r h h' → SameReading h h' d)

section Extensions

variable {fmt : Printf} {call : HashObj.PolicyCall} {h h' h'' : Heap} {q r d : Ref} {t : HashObj}
  {a : ArrayObj} {x v : Value} {c : Ref}

theorem Extends.refl (h : Heap) : Extends h h := ⟨fun _ _ => rfl, Nat.le_refl _, id⟩

theorem Extends.trans (he : Extends h h') (he' : Extends h' h'') : Extends h h'' :=
  ⟨fun q hq => (he'.kept q (Nat.lt_of_lt_of_le hq he.fresh)).trans (he.kept q hq),
    he.fresh.trans he'.fresh, he'.orderly ∘ he.orderly⟩

theorem lt_freshRef_of_get? {o : Obj} (hr : h.get? r = some o) : r < h.freshRef := by
  obtain ⟨c, hc, rfl, -⟩ := exists_mem_of_get? hr
  exact lt_freshRef hc

theorem Extends.get? (he : Extends h h') {o : Obj} (hr : h.get? r = some o) : h'.get? r = some o :=
  (he.kept r (lt_freshRef_of_get? hr)).trans hr

theorem Extends.array? (he : Extends h h') (ha : h.array? r = some a) : h'.array? r = some a := by
  rw [Heap.array?, he.get? (get?_of_array? ha)]

theorem Extends.cell? (he : Extends h h') (hx : h.Known x) : h'.cell? x = h.cell? x := by
  cases x with
  | obj c => rw [cell?_obj, cell?_obj, he.kept c (hx c rfl)]
  | null => rfl
  | bool b => rfl
  | num n => rfl

theorem Extends.plain (he : Extends h h') (hx : h.Plain x) : h'.Plain x :=
  ⟨hx.known.mono he.fresh, (he.cell? hx.known).trans hx.notCell⟩

/-- A store in a hash, and what the policy does. -/
theorem hashSetCanonical?_extends (hpolicy : PolicyKeeps call) {t t' : HashObj} {key value : Value}
    {stored : Bool} (hset : HashObj.hashSetCanonical? fmt call h t key value = some (h', t', stored)) :
    Extends h h' := by
  unfold HashObj.hashSetCanonical? at hset
  have hsame : ∀ (h₁ : Heap) (o : Option HashObj), Extends h h₁ →
      (o.map fun t => (h₁, t, true)) = some (h', t', stored) → Extends h h' := by
    intro h₁ o he ho
    cases o with
    | none => cases ho
    | some t₁ =>
      obtain ⟨rfl, -⟩ := Prod.mk.inj (Option.some.inj ho)
      exact he
  split_ifs at hset
  · exact hsame h _ (.refl h) hset
  · split at hset
    · exact hsame h _ (.refl h) hset
    · rename_i policy _
      dsimp only at hset
      generalize hargs : [_, _] = args at hset
      have hcall := hpolicy policy (ascii "remove") args h t
      generalize call policy (ascii "remove") args h t = answered at hset hcall
      obtain ⟨h₁, t₁, answer⟩ := answered
      cases answer with
      | none =>
        obtain ⟨rfl, -⟩ := Prod.mk.inj (Option.some.inj hset)
        exact hcall
      | some answer =>
        dsimp only at hset
        split_ifs at hset
        · exact hsame h₁ _ hcall hset
        · obtain ⟨rfl, -⟩ := Prod.mk.inj (Option.some.inj hset)
          exact hcall
        · exact hsame h₁ _ hcall hset

theorem hashGet?_extends (hpolicy : PolicyKeeps call) {t t' : HashObj} {key canonical value : Value}
    (hget : HashObj.hashGet? fmt call h t key canonical = some (h', t', value)) : Extends h h' := by
  unfold HashObj.hashGet? at hget
  dsimp only at hget
  split at hget
  · obtain ⟨rfl, -⟩ := Prod.mk.inj (Option.some.inj hget)
    exact .refl _
  · rename_i policy _
    split_ifs at hget
    · obtain ⟨rfl, -⟩ := Prod.mk.inj (Option.some.inj hget)
      exact .refl _
    · generalize HashObj.get fmt h t canonical = found at hget
      have hcall := hpolicy policy (ascii "miss") [key] h found.1
      generalize call policy (ascii "miss") [key] h found.1 = answered at hget hcall
      obtain ⟨h₁, t₁, answer⟩ := answered
      cases answer with
      | none =>
        obtain ⟨rfl, -⟩ := Prod.mk.inj (Option.some.inj hget)
        exact hcall
      | some answer =>
        dsimp only at hget
        cases hset : HashObj.hashSetCanonical? fmt call h₁ t₁ canonical answer with
        | none =>
          rw [hset] at hget
          cases hget
        | some s =>
          rw [hset] at hget
          obtain ⟨rfl, -⟩ := Prod.mk.inj (Option.some.inj hget)
          exact hcall.trans (hashSetCanonical?_extends hpolicy hset)

/-! ### What a use leaves alone -/

theorem change_of_not_array (hn : h.array? q = none) (op : ArrayOp) : h.change q op = h := by
  cases op with
  | push v => rw [Heap.change, insertInternal, hn]
  | insert index v => rw [Heap.change, insertInternal, hn]
  | removeAt index => rw [Heap.change, removeInternal, hn]
  | pop => rw [Heap.change, removeInternal, hn]
  | set index v => rw [Heap.change, setInternal, hn]

/-- The heap after a use of the hash at `q`: only the hash differs, and new objects. -/
structure HashUsed (h h' : Heap) (q : Ref) : Prop where
  kept : ∀ p, q ≠ p → p < h.freshRef → h'.get? p = h.get? p
  fresh : h.freshRef ≤ h'.freshRef
  hash : ∃ t, h'.get? q = some (.hash t)
  orderly : Orderly h → Orderly h'

theorem hashUsed_set (he : Extends h h') (ht : h.get? q = some (.hash t)) (t' : HashObj) :
    HashUsed h (h'.set q (.hash t')) q := by
  have hq := he.get? ht
  refine ⟨fun p hp hlt => (get?_set_ne hp).trans (he.kept p hlt), ?_, ⟨t', ?_⟩, fun ho => ?_⟩
  · rw [freshRef_set]
    exact he.fresh
  · exact get?_set_self (by rw [hq]; rfl)
  · refine (he.orderly ho).make fun p => .inl ?_
    unfold Heap.array?
    by_cases hp : q = p
    · rw [← hp, get?_set_self (by rw [hq]; rfl), hq]
    · rw [get?_set_ne hp]

theorem Use.hashUsed (hpolicy : PolicyKeeps call) (huse : Use fmt call q h h')
    (ht : h.get? q = some (.hash t)) : HashUsed h h' q := by
  have hn : h.array? q = none := by rw [Heap.array?, ht]
  have hsame : HashUsed h h q := ⟨fun _ _ _ => rfl, Nat.le_refl _, ⟨t, ht⟩, id⟩
  cases huse with
  | set index v hv => rwa [change_of_not_array hn]
  | removeAt index => rwa [change_of_not_array hn]
  | pop => rwa [change_of_not_array hn]
  | store raw v ht hset => exact hashUsed_set (hashSetCanonical?_extends hpolicy hset) ht _
  | find key raw ht hget => exact hashUsed_set (hashGet?_extends hpolicy hget) ht _
  | delete raw ht => exact hashUsed_set (.refl h) ht _

/-- A use of a hash changes nothing that is read from another container. -/
theorem HashUsed.sameReading (hu : HashUsed h h' q) (ht : h.get? q = some (.hash t)) (hqr : q ≠ r)
    (hr : r < h.freshRef) : SameReading h h' r := by
  have hsame := hu.kept r hqr hr
  refine ⟨?_, fun t' ht' => hsame.trans ht', fun c hc _ => ?_⟩
  · unfold Heap.live Heap.array?
    rw [hsame]
  · rw [cell?_obj] at hc
    rw [cell?_obj, cell?_obj, hu.kept c ?_ ?_]
    · rintro rfl
      rw [ht] at hc
      cases hc
    · cases hget : h.get? c with
      | none =>
        rw [hget] at hc
        cases hc
      | some o => exact lt_freshRef_of_get? hget

/-- The changes of an array that are uses of it. -/
def UseOp (h : Heap) : ArrayOp → Prop
  | .set _ v => h.Plain v
  | .removeAt _ => True
  | .pop => True
  | _ => False

theorem Use.change (huse : Use fmt call q h h') (ha : h.array? q = some a) :
    ∃ op, h.UseOp op ∧ h' = h.change q op := by
  have hno : ∀ t, h.get? q ≠ some (.hash t) := by
    intro t ht
    rw [get?_of_array? ha] at ht
    cases ht
  cases huse with
  | set index v hv => exact ⟨.set index v, hv, rfl⟩
  | removeAt index => exact ⟨.removeAt index, trivial, rfl⟩
  | pop => exact ⟨.pop, trivial, rfl⟩
  | store raw v ht hset => exact absurd ht (hno _)
  | find key raw ht hget => exact absurd ht (hno _)
  | delete raw ht => exact absurd ht (hno _)

/-! ### Arrays without cells -/

/-- The array at `d` is no view, and its storage has no cell. -/
def PlainRoot (h : Heap) (d : Ref) : Prop :=
  ∃ a, h.array? d = some a ∧ a.viewSource = none ∧ ∀ x ∈ a.elements, h.Plain x

theorem plain_null (h : Heap) : h.Plain .null := ⟨fun _ hr => (by cases hr), rfl⟩

theorem mem_ensureCapacity {n : ℕ} (hx : x ∈ (a.ensureCapacity n).elements) :
    x ∈ a.elements ∨ x = .null := by
  by_cases hfits : n ≤ a.elements.length
  · rw [ArrayObj.ensureCapacity, if_pos hfits] at hx
    exact .inl hx
  · rw [ArrayObj.ensureCapacity, if_neg hfits] at hx
    rcases List.mem_append.1 hx with hx | hx
    · exact .inl hx
    · exact .inr (List.eq_of_mem_replicate hx)

theorem mem_foldl_push {vs : List Value} (hx : x ∈ (vs.foldl ArrayObj.push a).elements) :
    x ∈ a.elements ∨ x = .null ∨ x ∈ vs := by
  induction vs generalizing a with
  | nil => exact .inl hx
  | cons v vs ih =>
    rcases ih hx with hx | hx | hx
    · rcases List.mem_or_eq_of_mem_set hx with hx | rfl
      · rcases mem_ensureCapacity hx with hx | hx
        · exact .inl hx
        · exact .inr (.inl hx)
      · exact .inr (.inr List.mem_cons_self)
    · exact .inr (.inl hx)
    · exact .inr (.inr (List.mem_cons_of_mem v hx))

/-- The storage of an array is written, and has no cell after it. -/
theorem PlainRoot.set (ha : h.array? d = some a) {b : ArrayObj} (hroot : b.viewSource = none)
    (hb : ∀ x ∈ b.elements, h.Plain x) : PlainRoot (h.set d (.array b)) d := by
  refine ⟨b, (array?_setArray ha b d).trans (if_pos rfl), hroot, fun x hx => ?_⟩
  refine ⟨(hb x hx).known.mono (Nat.le_of_eq (freshRef_set h d _).symm), ?_⟩
  rw [(SameButArrays.set ha b).cell?]
  exact (hb x hx).notCell

/-- A use of such an array writes into its storage, and nowhere else. -/
theorem PlainRoot.change (hp : PlainRoot h d) {op : ArrayOp} (hop : h.UseOp op) :
    PlainRoot (h.change d op) d ∧ ∀ p, d ≠ p → (h.change d op).get? p = h.get? p := by
  obtain ⟨a, ha, hroot, hplain⟩ := id hp
  have hremove : ∀ index : ℤ, PlainRoot (removeInternal (d + 1) h d index false) d ∧
      ∀ p, d ≠ p → (removeInternal (d + 1) h d index false).get? p = h.get? p := by
    intro index
    rw [removeInternal, ha]
    dsimp only
    by_cases hout : index < 0 ∨ index ≥ a.count
    · rw [if_pos hout]
      exact ⟨hp, fun _ _ => rfl⟩
    · rw [if_neg hout, hroot]
      refine ⟨PlainRoot.set ha ?_ fun x hx => ?_, fun p hne => get?_set_ne hne⟩
      · rw [ArrayObj.flag, if_neg (by simp)]
        exact hroot
      · rw [ArrayObj.flag, if_neg (by simp)] at hx
        rcases List.eq_or_mem_of_mem_insertIdx hx with rfl | hx
        · rw [List.getD_eq_getElem?_getD]
          cases hget : a.elements[a.count - 1]? with
          | none => exact plain_null h
          | some y => exact hplain y (List.mem_of_getElem? hget)
        · exact hplain x (List.mem_of_mem_eraseIdx hx)
  cases op with
  | push v => exact absurd hop id
  | insert index v => exact absurd hop id
  | removeAt index => exact hremove index
  | pop => exact hremove _
  | set index v =>
    rw [Heap.change, setInternal, ha]
    dsimp only
    by_cases hneg : index < 0
    · rw [if_pos hneg]
      exact ⟨hp, fun _ _ => rfl⟩
    · have hwrite : h.writeElement (a.ensureCapacity (index.toNat + 1)) index.toNat v =
          (h, { (a.ensureCapacity (index.toNat + 1)) with
            elements := (a.ensureCapacity (index.toNat + 1)).elements.set index.toNat v }) := by
        rw [writeElement, getD_ensureCapacity]
        split
        · rename_i c content watch hc
          split_ifs at hc
          -- the element is no cell
          have hno : h.cell? (a.elements.getD index.toNat .null) = none := by
            rw [List.getD_eq_getElem?_getD]
            cases hget : a.elements[index.toNat]? with
            | none => rfl
            | some y => exact (hplain y (List.mem_of_getElem? hget)).notCell
          rw [hno] at hc
          cases hc
        · rfl
      rw [if_neg hneg, hwrite, hroot]
      dsimp only
      refine ⟨PlainRoot.set ha ?_ fun x hx => ?_, fun p hne => get?_set_ne hne⟩
      · rw [ArrayObj.flag, if_neg (by simp)]
        exact ((kept_ensureCapacity a _).1.viewSource).trans hroot
      · rw [ArrayObj.flag, if_neg (by simp)] at hx
        rcases List.mem_or_eq_of_mem_set hx with hx | rfl
        · rcases mem_ensureCapacity hx with hx | rfl
          · exact hplain x hx
          · exact plain_null h
        · exact hop

/-! ### Independence -/

/-- A use of an array makes no cells. -/
theorem cell?_change (ho : Orderly h) (r : Ref) {op : ArrayOp} (hop : h.UseOp op) :
    ∀ c, ((h.change r op).cell? (.obj c)).isSome = (h.cell? (.obj c)).isSome := by
  cases op with
  | push v => exact absurd hop id
  | insert index v => exact absurd hop id
  | removeAt index =>
    exact fun c => congrArg Option.isSome ((SameButArrays.removeInternal _ h r index false).cell? _)
  | pop => exact fun c => congrArg Option.isSome ((SameButArrays.removeInternal _ h r _ false).cell? _)
  | set index v =>
    by_cases hneg : index < 0
    · intro c
      rw [Heap.change, setInternal]
      split
      · rfl
      · rw [if_pos hneg]
    · obtain ⟨i, rfl⟩ := Int.eq_ofNat_of_zero_le (Int.not_lt.1 hneg)
      exact (setInternal_cells ho.versions.ordered ho.sized _ r i v false).cells

/-- The copy and an original, as long as they have no cell in common. -/
inductive Apart (h : Heap) (d r : Ref) : Prop where
  | arrays (hlt : r < d) (hr : (h.array? r).isSome) (hd : PlainRoot h d)
  | hashes (hne : r ≠ d) (hr : ∃ t, h.get? r = some (.hash t)) (hd : ∃ t, h.get? d = some (.hash t))

theorem PlainRoot.extends (he : Extends h h') (hd : PlainRoot h d) : PlainRoot h' d := by
  obtain ⟨a, ha, hroot, hplain⟩ := hd
  exact ⟨a, he.array? ha, hroot, fun x hx => he.plain (hplain x hx)⟩

theorem Apart.extends (hapart : Apart h d r) (he : Extends h h') : Apart h' d r := by
  cases hapart with
  | arrays hlt hr hd =>
    obtain ⟨a, ha⟩ := Option.isSome_iff_exists.1 hr
    exact .arrays hlt (by rw [he.array? ha]; rfl) (hd.extends he)
  | hashes hne hr hd =>
    obtain ⟨t, ht⟩ := hr
    obtain ⟨t', ht'⟩ := hd
    exact .hashes hne ⟨t, he.get? ht⟩ ⟨t', he.get? ht'⟩

/-- The copy is used. -/
theorem Apart.use_copy (hapart : Apart h d r) (ho : Orderly h) (hpolicy : PolicyKeeps call)
    (huse : Use fmt call d h h') : Apart h' d r ∧ Orderly h' ∧ SameReading h h' r := by
  cases hapart with
  | arrays hlt hr hd =>
    obtain ⟨a, ha, -⟩ := id hd
    obtain ⟨op, hop, rfl⟩ := huse.change ha
    obtain ⟨hd', hsame⟩ := hd.change hop
    have harray : (h.change d op).array? r = h.array? r := by
      rw [Heap.array?, hsame r (Nat.ne_of_gt hlt)]
      rfl
    refine ⟨.arrays hlt (by rwa [harray]) hd', ho.change d op, ?_, fun t ht => ?_, fun c hc _ => ?_⟩
    · rw [Heap.live, harray]
      rfl
    · rw [hsame r (Nat.ne_of_gt hlt), ht]
    · rw [cell?_obj] at hc
      rw [cell?_obj, cell?_obj, hsame c]
      rintro rfl
      rw [get?_of_array? ha] at hc
      cases hc
  | hashes hne hr hd =>
    obtain ⟨t, ht⟩ := hr
    obtain ⟨t', ht'⟩ := hd
    have hu := huse.hashUsed hpolicy ht'
    have hlt := lt_freshRef_of_get? ht
    exact ⟨.hashes hne ⟨t, (hu.kept r hne.symm hlt).trans ht⟩ hu.hash, hu.orderly ho,
      hu.sameReading ht' hne.symm hlt⟩

/-- The original is used. -/
theorem Apart.use_original (hapart : Apart h d r) (ho : Orderly h) (hpolicy : PolicyKeeps call)
    (huse : Use fmt call r h h') : Apart h' d r ∧ Orderly h' ∧ SameReading h h' d := by
  cases hapart with
  | arrays hlt hr hd =>
    obtain ⟨a, ha, hroot, hplain⟩ := hd
    obtain ⟨b, hb⟩ := Option.isSome_iff_exists.1 hr
    obtain ⟨op, hop, rfl⟩ := huse.change hb
    have hord := ho.versions.ordered
    have heffect := change_effect hord r op
    -- the copy is younger than the original and its sources
    have harray := heffect.apart d fun habove => Nat.not_le.2 hlt (habove.le hord)
    have hcells := cell?_change ho r hop
    have hplain' : ∀ x ∈ a.elements, (h.change r op).Plain x := by
      intro x hx
      refine ⟨(hplain x hx).known.mono (Nat.le_of_eq (freshRef_change h r op).symm), ?_⟩
      cases x with
      | obj c =>
        have hsome := hcells c
        rw [(hplain _ hx).notCell] at hsome
        exact Option.not_isSome_iff_eq_none.1 (by rw [hsome]; exact Bool.false_ne_true)
      | null => rfl
      | bool b => rfl
      | num n => rfl
    obtain ⟨b', hb', -⟩ := heffect.kept r b hb
    refine ⟨.arrays hlt (by rw [hb']; rfl) ⟨a, harray.trans ha, hroot, hplain'⟩, ho.change r op, ?_,
      fun t ht => ?_, fun c hc hmem => ?_⟩
    · rw [Heap.live, harray]
      rfl
    · rw [get?_of_array? ha] at ht
      cases ht
    · rcases hmem with hmem | ⟨t, ht, -⟩
      · rw [live_eq ha] at hmem
        rw [(hplain _ (List.mem_of_mem_take hmem)).notCell] at hc
        cases hc
      · rw [get?_of_array? ha] at ht
        cases ht
  | hashes hne hr hd =>
    obtain ⟨t, ht⟩ := hr
    obtain ⟨t', ht'⟩ := hd
    have hu := huse.hashUsed hpolicy ht
    have hlt := lt_freshRef_of_get? ht'
    exact ⟨.hashes hne hu.hash ⟨t', (hu.kept d hne hlt).trans ht'⟩, hu.orderly ho,
      hu.sameReading ht hne hlt⟩

theorem Uses.apart {h₀ : Heap} (huses : Uses fmt call d r h₀ h) (hpolicy : PolicyKeeps call)
    (hapart : Apart h₀ d r) (ho : Orderly h₀) : Apart h d r ∧ Orderly h := by
  induction huses with
  | refl => exact ⟨hapart, ho⟩
  | extend _ he ih =>
    obtain ⟨hapart', ho'⟩ := ih
    exact ⟨hapart'.extends he, he.orderly ho'⟩
  | copy _ huse ih =>
    obtain ⟨hapart', ho'⟩ := ih
    obtain ⟨hnext, honext, -⟩ := hapart'.use_copy ho' hpolicy huse
    exact ⟨hnext, honext⟩
  | original _ huse ih =>
    obtain ⟨hapart', ho'⟩ := ih
    obtain ⟨hnext, honext, -⟩ := hapart'.use_original ho' hpolicy huse
    exact ⟨hnext, honext⟩

theorem Apart.independent (hapart : Apart h d r) (ho : Orderly h) (hpolicy : PolicyKeeps call) :
    Independent fmt call h d r := by
  intro h₁ h₂ huses
  obtain ⟨hapart₁, ho₁⟩ := huses.apart hpolicy hapart ho
  exact ⟨fun huse => (hapart₁.use_copy ho₁ hpolicy huse).2.2,
    fun huse => (hapart₁.use_original ho₁ hpolicy huse).2.2⟩

/-- A cell that both have is assigned through the copy, and read through the original. -/
theorem not_independent (ho : Orderly h) (ha : h.array? d = some a) (hroot : a.viewSource = none)
    (hx : x ∈ h.live d) (hxr : x ∈ h.live r) (hcell : (h.cell? x).isSome) :
    ¬Independent fmt call h d r := by
  intro hindependent
  obtain ⟨⟨c, content, watch⟩, hc⟩ := Option.isSome_iff_exists.1 hcell
  obtain ⟨rfl, hget⟩ := cell?_some hc
  obtain ⟨i, hi, hxi⟩ := List.getElem_of_mem hx
  -- a value that the cell does not have
  obtain ⟨v, hv, hne⟩ : ∃ v, h.Plain v ∧ v ≠ content := by
    by_cases hnull : content = .null
    · exact ⟨.num 0, ⟨fun _ hr => (by cases hr), rfl⟩, by rw [hnull]; exact Value.noConfusion⟩
    · exact ⟨.null, plain_null h, Ne.symm hnull⟩
  have hsame := ((hindependent h _ (.refl h)).1 (.set i v hv)).contents c hcell (.inl hxr)
  have hlen := length_live ho.sized ha
  have hi' : i < a.count := by rwa [← hlen]
  have helement : a.elements.getD i .null = .obj c := by
    have hlive := List.getElem?_eq_getElem hi
    rw [hxi, live_eq ha, live_getElem?, if_pos hi'] at hlive
    rw [List.getD_eq_getElem?_getD, hlive]
    rfl
  have hwrite : (h.writeElement a i v).1 = h.set c (.scalarCell v watch) := by
    rw [writeElement, if_pos hi', helement, hc]
    dsimp only
    rw [hv.notCell]
  have har : Heap.array? (h.set c (.scalarCell v watch)) d = some a := (array?_setCell hget d).trans ha
  rw [Heap.change, setInternal_write ha (ho.sized d a ha) hi', hroot] at hsame
  dsimp only at hsame
  rw [writeInside, hwrite, (SameButArrays.set har _).cell?, cell?_setCell hget, if_pos rfl, hc] at hsame
  exact hne (Prod.mk.inj (Prod.mk.inj (Option.some.inj hsame)).2).1

/-! ### What is copied -/

theorem viewSource_foldl_push (a : ArrayObj) (vs : List Value) :
    (vs.foldl ArrayObj.push a).viewSource = a.viewSource := by
  induction vs generalizing a with
  | nil => rfl
  | cons v vs ih => exact (ih (a.push v)).trans (kept_ensureCapacity a _).1.viewSource

/-- A new object at a fresh address. -/
theorem extends_fresh (h : Heap) (o : Obj)
    (ho : ∀ a, o = .array a → a.viewSource = none ∧ a.count ≤ a.elements.length) :
    Extends h (⟨h.freshRef, false, o⟩ :: h) := by
  have hget : ∀ q, Heap.get? (⟨h.freshRef, false, o⟩ :: h) q =
      if h.freshRef = q then some o else h.get? q := fun q => get?_cons _ h q
  refine ⟨fun q hq => (hget q).trans (if_neg (Nat.ne_of_gt hq)), Nat.le_max_right _ _, fun hord => ?_⟩
  refine hord.make fun q => ?_
  unfold Heap.array?
  rw [hget]
  by_cases hq : h.freshRef = q
  · have hnone : h.get? q = none := by
      cases hq' : h.get? q with
      | none => rfl
      | some o => exact absurd hq.symm (ne_freshRef hq')
    rw [if_pos hq, hnone]
    cases o with
    | array a => exact .inr ⟨rfl, a, rfl, ho a rfl⟩
    | _ => exact .inl rfl
  · exact .inl (by rw [if_neg hq])

/-- A new array of the values `vs`. -/
def withArray (h : Heap) (vs : List Value) : Heap :=
  ⟨h.freshRef, false, .array (vs.foldl ArrayObj.push {})⟩ :: h

theorem withArray_extends (h : Heap) (vs : List Value) : Extends h (h.withArray vs) := by
  refine extends_fresh h _ ?_
  rintro a ⟨⟩
  exact ⟨viewSource_foldl_push _ vs, (foldl_push_sized {} (Nat.le_refl _) vs).1⟩

theorem array?_withArray (h : Heap) (vs : List Value) :
    (h.withArray vs).array? h.freshRef = some (vs.foldl ArrayObj.push {}) := by
  rw [withArray, array?_cons, if_pos rfl]

theorem live_withArray (h : Heap) (vs : List Value) : (h.withArray vs).live h.freshRef = vs := by
  rw [live_eq (array?_withArray h vs), ArrayObj.live_foldl_push (Nat.le_refl _)]
  rfl

theorem plainRoot_withArray {vs : List Value} (hvs : ∀ x ∈ vs, h.Plain x) :
    PlainRoot (h.withArray vs) h.freshRef := by
  refine ⟨_, array?_withArray h vs, viewSource_foldl_push _ vs, fun x hx => ?_⟩
  refine (withArray_extends h vs).plain ?_
  rcases mem_foldl_push hx with hx | rfl | hx
  · cases hx
  · exact plain_null h
  · exact hvs x hx

/-- What a copy is: a hash, or an array of values, of which those that are cells are elements of what
they are copied from. -/
inductive Copied (h h' : Heap) (op : CopyOp) : Prop where
  | hash (r : Ref) (t t' : HashObj) (hop : op = .copy r) (ht : h.get? r = some (.hash t))
      (hheap : h' = ⟨h.freshRef, false, .hash t'⟩ :: h)
  | array (vs : List Value) (hheap : h' = h.withArray vs)
      (horiginals : ∀ r ∈ h.originals op, (h.array? r).isSome)
      (hplain : h.CellFree op → ∀ x ∈ vs, h.Plain x)
      (hcells : ¬h.CellFree op → ∃ r ∈ h.originals op, ∃ x ∈ h.live r, (h.cell? x).isSome ∧ x ∈ vs)

/-- The elements of one array are copied. -/
theorem copied_elements {op : CopyOp} (ha : h.array? r = some a) (hop : h.originals op = [r])
    (hfree : h.CellFree op ↔ ∀ r ∈ h.originals op, ∀ x ∈ h.live r, h.cell? x = none)
    (hknown : ∀ x ∈ h.live r, h.Known x) (hheap : h' = h.withArray a.live) : Copied h h' op := by
  rw [← live_eq ha] at hheap
  rw [hop] at hfree
  refine .array _ hheap (fun q hq => ?_) (fun hcells x hx => ⟨hknown x hx, ?_⟩) fun hcells => ?_
  · rw [hop, List.mem_singleton] at hq
    rw [hq, ha]
    rfl
  · exact hfree.1 hcells r (List.mem_singleton.2 rfl) x hx
  · rw [hfree] at hcells
    push Not at hcells
    obtain ⟨q, hq, x, hx, hcell⟩ := hcells
    obtain rfl := List.mem_singleton.1 hq
    exact ⟨q, by rw [hop]; exact hq, x, hx, Option.isSome_iff_ne_none.2 hcell, hx⟩

theorem mem_concatItems {arg : Value} (hx : x ∈ h.concatItems arg) :
    (∃ r, h.arrayArg? arg = some r ∧ x ∈ h.live r) ∨ h.arrayArg? arg = none ∧ x = arg := by
  unfold concatItems at hx
  split at hx
  · rename_i r hr
    exact .inl ⟨r, hr, hx⟩
  · rename_i hr
    exact .inr ⟨hr, List.mem_singleton.1 hx⟩

theorem arrayArg?_isSome {arg : Value} (hr : h.arrayArg? arg = some r) : (h.array? r).isSome := by
  cases arg with
  | obj q =>
    rw [arrayArg?] at hr
    split_ifs at hr with hq
    rwa [← Option.some.inj hr]
  | null => cases hr
  | bool b => cases hr
  | num n => cases hr

theorem copied?_spec {op : CopyOp} (hfits : h.CopyFits op) (hcopy : h.copied? fmt op = some (h', d)) :
    Copied h h' op ∧ d = h.freshRef := by
  cases op with
  | copy r =>
    rw [copied?] at hcopy
    split at hcopy
    · rename_i a hget
      obtain ⟨hheap, hd⟩ := Prod.mk.inj (Option.some.inj hcopy)
      have ha : h.array? r = some a := by rw [Heap.array?, hget]
      exact ⟨copied_elements ha rfl Iff.rfl hfits hheap.symm, hd.symm⟩
    · rename_i t ht
      cases ht' : copyHash? fmt h t with
      | none =>
        rw [ht'] at hcopy
        cases hcopy
      | some t' =>
        rw [ht'] at hcopy
        obtain ⟨hheap, hd⟩ := Prod.mk.inj (Option.some.inj hcopy)
        exact ⟨.hash r t t' rfl ht hheap.symm, hd.symm⟩
    · cases hcopy
  | concat args =>
    obtain ⟨hheap, hd⟩ := Prod.mk.inj (Option.some.inj hcopy)
    refine ⟨.array _ hheap.symm (fun r hr => ?_) (fun hfree x hx => ?_) fun hcells => ?_, hd.symm⟩
    · obtain ⟨arg, -, hr⟩ := List.mem_filterMap.1 hr
      exact arrayArg?_isSome hr
    · obtain ⟨arg, harg, hx⟩ := List.mem_flatMap.1 hx
      have hvalue := hfits arg harg
      rcases mem_concatItems hx with ⟨r, hr, hx⟩ | ⟨hr, rfl⟩
      · rw [hr] at hvalue
        exact ⟨hvalue x hx, hfree r (List.mem_filterMap.2 ⟨arg, harg, hr⟩) x hx⟩
      · rw [hr] at hvalue
        exact hvalue
    · have hfree : h.CellFree (.concat args) ↔
          ∀ r ∈ h.originals (.concat args), ∀ x ∈ h.live r, h.cell? x = none := Iff.rfl
      rw [hfree] at hcells
      push Not at hcells
      obtain ⟨r, hr, x, hx, hcell⟩ := hcells
      obtain ⟨arg, harg, hargr⟩ := List.mem_filterMap.1 hr
      refine ⟨r, hr, x, hx, Option.isSome_iff_ne_none.2 hcell, List.mem_flatMap.2 ⟨arg, harg, ?_⟩⟩
      rw [concatItems, hargr]
      exact hx
  | putAll r =>
    rw [copied?] at hcopy
    cases ha : h.array? r with
    | none =>
      rw [ha] at hcopy
      cases hcopy
    | some a =>
      rw [ha] at hcopy
      obtain ⟨hheap, hd⟩ := Prod.mk.inj (Option.some.inj hcopy)
      rw [ArrayObj.live_foldl_push (Nat.le_refl _)] at hheap
      exact ⟨copied_elements ha rfl Iff.rfl hfits hheap.symm, hd.symm⟩
  | construct r =>
    rw [copied?] at hcopy
    cases ha : h.array? r with
    | none =>
      rw [ha] at hcopy
      cases hcopy
    | some a =>
      rw [ha] at hcopy
      obtain ⟨hheap, hd⟩ := Prod.mk.inj (Option.some.inj hcopy)
      refine ⟨.array _ hheap.symm (fun q hq => ?_) (fun _ x hx => ?_) fun hcells => absurd trivial hcells,
        hd.symm⟩
      · rw [List.mem_singleton.1 hq, ha]
        rfl
      · obtain ⟨y, hy, rfl⟩ := List.mem_map.1 hx
        exact hfits y hy

/-- A copy is independent of what it was made from exactly if no element that was copied as it is is a
cell. -/
theorem independent_iff (hrun : CellRun h) (hpolicy : PolicyKeeps call) {op : CopyOp}
    (hfits : h.CopyFits op) (hcopy : h.copied? fmt op = some (h', d)) :
    (∀ r ∈ h.originals op, Independent fmt call h' d r) ↔ h.CellFree op := by
  obtain ⟨hcopied, rfl⟩ := copied?_spec hfits hcopy
  cases hcopied with
  | hash r t t' hop ht hheap =>
    subst hop hheap
    have hextends : Extends h (⟨h.freshRef, false, .hash t'⟩ :: h) := extends_fresh h _ (by rintro a ⟨⟩)
    have hn : h.live r = [] := by rw [Heap.live, Heap.array?, ht]
    refine iff_of_true (fun q hq => ?_) fun q hq x hx => ?_
    · obtain rfl := List.mem_singleton.1 hq
      refine Apart.independent (.hashes ?_ ⟨t, hextends.get? ht⟩ ⟨t', ?_⟩)
        (hextends.orderly hrun.orderly) hpolicy
      · exact Nat.ne_of_lt (lt_freshRef_of_get? ht)
      · rw [get?_cons, if_pos rfl]
    · rw [List.mem_singleton.1 hq, hn] at hx
      cases hx
  | array vs hheap horiginals hplain hcells =>
    subst hheap
    have hextends := withArray_extends h vs
    have hlt : ∀ r ∈ h.originals op, r < h.freshRef := by
      intro r hr
      obtain ⟨a, ha⟩ := Option.isSome_iff_exists.1 (horiginals r hr)
      exact lt_freshRef_of_get? (get?_of_array? ha)
    have hsame : ∀ r ∈ h.originals op, (h.withArray vs).array? r = h.array? r := by
      intro r hr
      obtain ⟨a, ha⟩ := Option.isSome_iff_exists.1 (horiginals r hr)
      rw [hextends.array? ha, ha]
    constructor
    · intro hindependent
      by_contra hno
      obtain ⟨r, hr, x, hx, hcell, hxvs⟩ := hcells hno
      refine not_independent (hextends.orderly hrun.orderly) (array?_withArray h vs)
        (viewSource_foldl_push _ vs) (by rwa [live_withArray]) ?_ ?_ (hindependent r hr)
      · rw [Heap.live, hsame r hr]
        exact hx
      · obtain ⟨⟨c, content, watch⟩, hc⟩ := Option.isSome_iff_exists.1 hcell
        obtain ⟨rfl, hget⟩ := cell?_some hc
        rw [cell?_obj, hextends.get? hget]
        rfl
    · intro hfree r hr
      refine Apart.independent (.arrays (hlt r hr) ?_ (plainRoot_withArray (hplain hfree)))
        (hextends.orderly hrun.orderly) hpolicy
      rw [hsame r hr]
      exact horiginals r hr

end Extensions

section Example

/-- An array of two numbers is copied. -/
theorem independent_iff_numbers :
    let fmt : Printf := ⟨fun _ => [], fun _ => []⟩
    let h : Heap := [⟨0, false, .array { elements := [.num 1, .num 2], count := 2 }⟩]
    ∀ r ∈ h.originals (.copy 0),
      Independent fmt (fun _ _ _ h t => (h, t, none)) (h.withArray [.num 1, .num 2]) 1 r := by
  intro fmt h
  have hrun : CellRun h := .arrays (.one 0 { elements := [.num 1, .num 2], count := 2 } (Nat.le_refl 2) rfl)
  have hitems : h.live 0 = [.num 1, .num 2] := rfl
  refine (independent_iff hrun (fun _ _ _ h _ => .refl h) (show h.CopyFits (.copy 0) from ?_) rfl).2 ?_
  · intro x hx r hr
    rw [hitems] at hx
    subst hr
    simp at hx
  · intro r hr x hx
    rw [List.mem_singleton.1 hr, hitems] at hx
    rcases List.mem_cons.1 hx with rfl | hx
    · rfl
    · rw [List.mem_singleton.1 hx]
      rfl

/-- An array with a cell is copied, and the element of the copy is assigned. -/
theorem not_independent_cell :
    let fmt : Printf := ⟨fun _ => [], fun _ => []⟩
    let h : Heap := [⟨1, false, .scalarCell (.num 5) none⟩,
      ⟨0, false, .array { elements := [.obj 1], count := 1 }⟩]
    h.copied? fmt (.copy 0) = some (h.withArray [.obj 1], 2) ∧
      ¬Independent fmt (fun _ _ _ h t => (h, t, none)) (h.withArray [.obj 1]) 2 0 := by
  intro fmt h
  have hrun : CellRun h := by
    refine (CellRun.arrays (.one 0 { elements := [.obj 1], count := 1 } (Nat.le_refl 1) rfl)).make h
      fun q => .inl ?_
    unfold Heap.array?
    rw [get?_cons]
    split_ifs with hq
    · rw [← hq]
      rfl
    · rfl
  refine ⟨rfl, not_independent ((withArray_extends h _).orderly hrun.orderly)
    (array?_withArray h _) (viewSource_foldl_push _ _) (x := .obj 1) ?_ ?_ (by decide)⟩
  · exact (live_withArray h [.obj 1]).symm ▸ List.mem_cons_self
  · exact List.mem_cons_self

end Example

end Heap

end Slp
