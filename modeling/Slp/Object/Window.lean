import Slp.Object.View

/-!
# Chains of views

A chain of views, from the last view down to the array that is no view, is followed as a list of
levels: for each array its address, its elements, and the place its first element has in the array
at the bottom.  Each place of the bottom array that several levels show is then one number, and an
insertion, a removal or an assignment through the last view is the same change, at the same place,
of all levels.
-/

namespace Slp

/-- An array of a chain of views: its address, the place of its first element in the array at the
bottom of the chain, and its elements. -/
structure Level where
  ref : Ref
  base : ℕ
  items : List Value

namespace Level

/-- The place after the last element. -/
def stop (l : Level) : ℕ := l.base + l.items.length

/-- The level with other elements. -/
def change (g : Level → List Value) (l : Level) : Level := { l with items := g l }

/-- The elements with `vs` inserted at the place `p`. -/
def splice (p : ℕ) (vs : List Value) (l : Level) : List Value :=
  l.items.take (p - l.base) ++ vs ++ l.items.drop (p - l.base)

/-- The elements without the one at the place `p`. -/
def erase (p : ℕ) (l : Level) : List Value := l.items.eraseIdx (p - l.base)

/-- The elements after an assignment at the place `p`: a cell stays. -/
def write (h : Heap) (p : ℕ) (v : Value) (l : Level) : List Value :=
  if (h.cell? (l.items.getD (p - l.base) .null)).isSome then l.items
  else l.items.set (p - l.base) v

end Level

namespace Heap

/-- What is read of an element, by `slp_obj_array_get`. -/
def read (h : Heap) (v : Value) : Value :=
  match h.cell? v with
  | some (_, content, _) => content
  | none => v

/-- The array at a level. -/
structure Holds (h : Heap) (l : Level) (a : ArrayObj) : Prop where
  array : h.array? l.ref = some a
  sized : a.count ≤ a.elements.length
  live : a.live = l.items

/-- The levels are the arrays of a chain of views, the last view first. -/
def Stack (h : Heap) : Level → List Level → Prop
  | m, [] => ∃ a, Holds h m a ∧ a.viewSource = none ∧ m.base = 0
  | m, l :: rest =>
    (∃ a, Holds h m a ∧ a.viewSource = some l.ref ∧ m.base = l.base + a.viewOffset) ∧
      l.ref < m.ref ∧ m.stop ≤ l.stop ∧ Stack h l rest

/-- All levels were changed in the same way, from `m` down. -/
structure Changed (h h' : Heap) (m : Level) (rest : List Level) (g : Level → List Value)
    (fromChildView : Bool) : Prop where
  stack : Stack h' (m.change g) (rest.map (Level.change g))
  above : ∀ q, m.ref < q → h'.array? q = h.array? q
  valid : fromChildView = false → (∀ a, h.array? m.ref = some a → a.viewInvalid = false) →
    h'.viewIsValid m.ref = true

section Levels

variable {h h₁ h₂ h' : Heap} {m l : Level} {rest : List Level} {a b : ArrayObj}
  {g : Level → List Value} {v : Value} {fromChildView : Bool} {p : ℕ}

theorem Holds.count (hm : Holds h m a) : a.count = m.items.length := by
  rw [← hm.live, ArrayObj.live, List.length_take, min_eq_left hm.sized]

theorem Stack.holds (hs : Stack h m rest) : ∃ a, Holds h m a := by
  cases rest with
  | nil => exact hs.imp fun _ ha => ha.1
  | cons l rest => exact hs.1.imp fun _ ha => ha.1

/-- Each level shows all the places that the last view shows. -/
theorem Stack.mem (hs : Stack h m rest) (hl : l ∈ m :: rest) : l.base ≤ m.base ∧ m.stop ≤ l.stop := by
  induction rest generalizing m with
  | nil =>
    obtain rfl := List.mem_singleton.1 hl
    exact ⟨Nat.le_refl _, Nat.le_refl _⟩
  | cons l' rest ih =>
    obtain ⟨⟨a, -, -, hbase⟩, -, hstop, htail⟩ := hs
    rcases List.mem_cons.1 hl with rfl | hl
    · exact ⟨Nat.le_refl _, Nat.le_refl _⟩
    · obtain ⟨hb, hs⟩ := ih htail hl
      exact ⟨by omega, hstop.trans hs⟩

/-- A chain is no longer than the address of its last view. -/
theorem Stack.length_le (hs : Stack h m rest) : rest.length ≤ m.ref := by
  induction rest generalizing m with
  | nil => exact Nat.zero_le _
  | cons l rest ih => exact Nat.lt_of_le_of_lt (ih hs.2.2.2) hs.2.1

/-- The levels see only the arrays up to the last view. -/
theorem Stack.congr (hs : Stack h m rest)
    (hsame : ∀ q, q ≤ m.ref → h'.array? q = h.array? q) : Stack h' m rest := by
  induction rest generalizing m with
  | nil =>
    obtain ⟨a, ⟨ha, hsize, hlive⟩, hrest⟩ := hs
    exact ⟨a, ⟨(hsame _ (Nat.le_refl _)).trans ha, hsize, hlive⟩, hrest⟩
  | cons l rest ih =>
    obtain ⟨⟨a, ⟨ha, hsize, hlive⟩, hrest⟩, hlt, hstop, htail⟩ := hs
    refine ⟨⟨a, ⟨(hsame _ (Nat.le_refl _)).trans ha, hsize, hlive⟩, hrest⟩, hlt, hstop, ?_⟩
    exact ih htail fun q hq => hsame q (hq.trans (Nat.le_of_lt hlt))

/-- What an array keeps when its elements are changed. -/
structure Rewritten (a b : ArrayObj) (items : List Value) (fromChildView : Bool) : Prop where
  viewSource : b.viewSource = a.viewSource
  viewOffset : b.viewOffset = a.viewOffset
  viewInvalid : fromChildView = false → b.viewInvalid = a.viewInvalid
  sized : b.count ≤ b.elements.length
  live : b.live = items

/-- The array at the bottom is changed. -/
theorem Changed.root (hs : Stack h m []) (ha : h.array? m.ref = some a)
    (hb : Rewritten a b (g m) fromChildView)
    (hset : ∀ q, h₁.array? q = if m.ref = q then some b else h.array? q) :
    Changed h h₁ m [] g fromChildView := by
  obtain ⟨x, hx, hroot, hbase⟩ := hs
  obtain rfl := Option.some.inj (ha.symm.trans hx.array)
  have hself : h₁.array? m.ref = some b := by rw [hset, if_pos rfl]
  refine ⟨⟨b, ⟨hself, hb.sized, hb.live⟩, hb.viewSource.trans hroot, hbase⟩, ?_, ?_⟩
  · intro q hq
    rw [hset, if_neg (Nat.ne_of_lt hq)]
  · intro _ _
    rw [viewIsValid, hself]
    dsimp only
    rw [hb.viewSource, hroot]

theorem array?_refresh {r s : Ref} (ha : h.array? r = some a) (hb : h.array? s = some b) (q : Ref) :
    (h.refresh r s).array? q =
      if r = q then some { a with viewSourceVersion := b.mutationVersion } else h.array? q := by
  rw [refresh, ha, hb]
  exact array?_setArray ha _ q

/-- A view is changed, and then its source from below. -/
theorem Changed.view (hs : Stack h m (l :: rest)) (ha : h.array? m.ref = some a)
    (hb : Rewritten a b (g m) fromChildView)
    (hset : ∀ q, h₁.array? q = if m.ref = q then some b else h.array? q)
    (hrest : Changed h₁ h₂ l rest g true) (hstop : (m.change g).stop ≤ (l.change g).stop) :
    Changed h (if fromChildView = true then h₂ else h₂.refresh m.ref l.ref) m (l :: rest) g
      fromChildView := by
  obtain ⟨⟨x, hx, hsource, hbase⟩, hlt, -, -⟩ := hs
  obtain rfl := Option.some.inj (ha.symm.trans hx.array)
  have hself : h₂.array? m.ref = some b := by rw [hrest.above m.ref hlt, hset, if_pos rfl]
  have hview : b.viewSource = some (Level.change g l).ref := hb.viewSource.trans hsource
  have hoffset : m.base = l.base + b.viewOffset := by rw [hb.viewOffset, hbase]
  cases fromChildView with
  | true =>
    rw [if_pos rfl]
    refine ⟨⟨⟨b, ⟨hself, hb.sized, hb.live⟩, hview, hoffset⟩, hlt, hstop, hrest.stack⟩, ?_, ?_⟩
    · intro q hq
      rw [hrest.above q (Nat.lt_trans hlt hq), hset, if_neg (Nat.ne_of_lt hq)]
    · intro hno
      cases hno
  | false =>
    rw [if_neg Bool.false_ne_true]
    obtain ⟨d, hd⟩ := hrest.stack.holds
    have hl : h₂.array? l.ref = some d := hd.array
    have hnote := array?_refresh hself hl
    have hnew : (h₂.refresh m.ref l.ref).array? m.ref =
        some { b with viewSourceVersion := d.mutationVersion } := by
      rw [hnote, if_pos rfl]
    refine ⟨⟨⟨_, ⟨hnew, hb.sized, hb.live⟩, hview, hoffset⟩, hlt, hstop, ?_⟩, ?_, ?_⟩
    · refine hrest.stack.congr fun q hq => ?_
      rw [hnote, if_neg]
      rintro rfl
      exact absurd hlt (Nat.not_lt.2 hq)
    · intro q hq
      rw [hnote, if_neg (Nat.ne_of_lt hq), hrest.above q (Nat.lt_trans hlt hq), hset,
        if_neg (Nat.ne_of_lt hq)]
    · intro _ hflag
      have hsrc : (h₂.refresh m.ref l.ref).array? l.ref = some d := by
        rw [hnote, if_neg (Nat.ne_of_gt hlt)]
        exact hl
      have hno : b.viewInvalid = false := (hb.viewInvalid rfl).trans (hflag _ ha)
      rw [viewIsValid, hnew]
      dsimp only
      rw [hview]
      dsimp only [Level.change]
      rw [hsrc, hno]
      simp

/-! ### The arrays themselves -/

theorem rewritten_flag {items : List Value} {fromChildView : Bool}
    (hb : Rewritten a b items false) : Rewritten a (b.flag fromChildView) items fromChildView := by
  unfold ArrayObj.flag
  by_cases hflag : fromChildView = true ∧ b.viewSource.isSome
  · rw [if_pos hflag]
    refine ⟨hb.viewSource, hb.viewOffset, ?_, hb.sized, hb.live⟩
    intro hno
    rw [hflag.1] at hno
    cases hno
  · rw [if_neg hflag]
    exact ⟨hb.viewSource, hb.viewOffset, fun _ => hb.viewInvalid rfl, hb.sized, hb.live⟩

theorem getElem?_ensureCapacity (a : ArrayObj) {needed j : ℕ} (hj : j < a.elements.length) :
    (a.ensureCapacity needed).elements[j]? = a.elements[j]? := by
  by_cases hfits : needed ≤ a.elements.length
  · rw [ArrayObj.ensureCapacity, if_pos hfits]
  · rw [ArrayObj.ensureCapacity, if_neg hfits]
    exact List.getElem?_append_left hj

theorem getD_ensureCapacity (a : ArrayObj) (needed j : ℕ) :
    (a.ensureCapacity needed).elements.getD j .null = a.elements.getD j .null := by
  by_cases hfits : needed ≤ a.elements.length
  · rw [ArrayObj.ensureCapacity, if_pos hfits]
  · rw [ArrayObj.ensureCapacity, if_neg hfits]
    simp only [List.getD_eq_getElem?_getD, List.getElem?_append, List.getElem?_replicate]
    generalize ArrayObj.doubleUntil needed needed _ = capacity
    split_ifs with hj
    · rfl
    · rw [List.getElem?_eq_none (Nat.le_of_not_lt hj)]
      rfl
    · rw [List.getElem?_eq_none (Nat.le_of_not_lt hj)]

theorem viewInvalid_ensureCapacity (a : ArrayObj) (needed : ℕ) :
    (a.ensureCapacity needed).viewInvalid = a.viewInvalid := by
  by_cases hfits : needed ≤ a.elements.length
  · rw [ArrayObj.ensureCapacity, if_pos hfits]
  · rw [ArrayObj.ensureCapacity, if_neg hfits]

theorem live_getElem? (a : ArrayObj) (j : ℕ) :
    a.live[j]? = if j < a.count then a.elements[j]? else none :=
  List.getElem?_take

theorem rewritten_insertOwn {i : ℕ} (hsize : a.count ≤ a.elements.length) (hi : i ≤ a.count)
    (v : Value) :
    Rewritten a (a.insertOwn i v) (a.live.take i ++ [v] ++ a.live.drop i) false := by
  have hroom := ArrayObj.le_length_ensureCapacity a (a.count + 1)
  have hlen : (((a.ensureCapacity (a.count + 1)).elements.eraseIdx a.count).insertIdx i v).length =
      (a.ensureCapacity (a.count + 1)).elements.length := by
    rw [List.length_insertIdx, List.length_eraseIdx]
    split_ifs <;> omega
  have hcount : (a.insertOwn i v).count = a.count + 1 :=
    congrArg (· + 1) (a.ensureCapacity_count (a.count + 1))
  have helements : (a.insertOwn i v).elements =
      ((a.ensureCapacity (a.count + 1)).elements.eraseIdx a.count).insertIdx i v := by
    show ((a.ensureCapacity _).elements.eraseIdx (a.ensureCapacity _).count).insertIdx i v = _
    rw [ArrayObj.ensureCapacity_count]
  obtain ⟨hk, -, -⟩ := kept_ensureCapacity a (a.count + 1)
  refine ⟨hk.viewSource, hk.viewOffset, fun _ => viewInvalid_ensureCapacity a _, ?_, ?_⟩
  · rw [hcount, helements, hlen]
    exact hroom
  · refine List.ext_getElem? fun j => ?_
    rw [live_getElem?, hcount, helements]
    have hold : ∀ k, k < a.count →
        (a.ensureCapacity (a.count + 1)).elements[k]? = a.live[k]? := by
      intro k hk
      rw [live_getElem?, if_pos hk, getElem?_ensureCapacity a (by omega)]
    have hlive : a.live.length = a.count := by
      rw [ArrayObj.live, List.length_take, min_eq_left hsize]
    rw [List.getElem?_insertIdx, List.getElem?_eraseIdx, List.getElem?_eraseIdx,
      List.append_assoc, List.getElem?_append, List.length_take, hlive, min_eq_left hi]
    -- before the new element, at it, and after it
    rcases Nat.lt_trichotomy j i with hj | rfl | hj
    · rw [if_pos (by omega), if_pos hj, if_pos (by omega), if_pos hj, hold j (by omega),
        List.getElem?_take, if_pos hj]
    · have hfits : j ≤ ((a.ensureCapacity (a.count + 1)).elements.eraseIdx a.count).length := by
        rw [List.length_eraseIdx]
        split_ifs <;> omega
      rw [if_pos (by omega), if_neg (Nat.lt_irrefl j), if_pos rfl, if_pos hfits,
        if_neg (Nat.lt_irrefl j), Nat.sub_self]
      rfl
    · rw [if_neg (by omega : ¬j < i), if_neg (by omega : ¬j = i), if_neg (by omega : ¬j < i)]
      obtain ⟨k, rfl⟩ := Nat.exists_eq_add_of_lt hj
      rw [show i + k + 1 - i = k + 1 by omega, show i + k + 1 - 1 = i + k by omega]
      show _ = (a.live.drop i)[k]?
      rw [List.getElem?_drop]
      by_cases hin : i + k < a.count
      · rw [if_pos (by omega), if_pos hin, hold _ hin]
      · rw [if_neg (by omega), live_getElem?, if_neg hin]

theorem rewritten_removeOwn {i : ℕ} (hsize : a.count ≤ a.elements.length) (hi : i < a.count) :
    Rewritten a (a.removeOwn i) (a.live.eraseIdx i) false := by
  have hlen : ((a.elements.eraseIdx i).insertIdx (a.count - 1)
      (a.elements.getD (a.count - 1) .null)).length = a.elements.length := by
    rw [List.length_insertIdx, List.length_eraseIdx]
    split_ifs <;> omega
  refine ⟨rfl, rfl, fun _ => rfl, ?_, ?_⟩
  · show a.count - 1 ≤ _
    rw [ArrayObj.removeOwn, hlen]
    omega
  · refine List.ext_getElem? fun j => ?_
    rw [live_getElem?, List.getElem?_eraseIdx, live_getElem?, live_getElem?]
    show (if j < a.count - 1 then ((a.elements.eraseIdx i).insertIdx (a.count - 1)
      (a.elements.getD (a.count - 1) .null))[j]? else none) = _
    by_cases hj : j < a.count - 1
    · rw [if_pos hj, List.getElem?_insertIdx, if_pos hj, List.getElem?_eraseIdx,
        if_pos (by omega : j < a.count), if_pos (by omega : j + 1 < a.count)]
    · rw [if_neg hj]
      split_ifs <;> first | rfl | omega

/-! ### Insertion and removal -/

theorem Level.stop_splice (p : ℕ) (vs : List Value) (l : Level) :
    (l.change (Level.splice p vs)).stop = l.stop + vs.length := by
  show l.base + (l.items.take (p - l.base) ++ vs ++ l.items.drop (p - l.base)).length = _
  rw [Level.stop, List.length_append, List.length_append, List.length_take, List.length_drop]
  omega

theorem Level.stop_erase (hp : l.base ≤ p) (hp' : p < l.stop) :
    (l.change (Level.erase p)).stop = l.stop - 1 := by
  unfold Level.stop at hp' ⊢
  show l.base + (l.items.eraseIdx (p - l.base)).length = _
  rw [List.length_eraseIdx, if_pos (by omega)]
  omega

theorem Level.stop_write (h : Heap) (p : ℕ) (v : Value) (l : Level) :
    (l.change (Level.write h p v)).stop = l.stop := by
  show l.base + (Level.write h p v l).length = l.base + l.items.length
  unfold Level.write
  split_ifs
  · rfl
  · rw [List.length_set]

theorem insertInternal_changed (hs : Stack h m rest) {fuel : ℕ} (hfuel : rest.length < fuel)
    (hp : m.base ≤ p) (hp' : p ≤ m.stop) (v : Value) (fromChildView : Bool) :
    Changed h (insertInternal fuel h m.ref ((p - m.base : ℕ) : ℤ) v fromChildView) m rest
      (Level.splice p [v]) fromChildView := by
  induction rest generalizing h m fuel fromChildView with
  | nil =>
    obtain ⟨n, rfl⟩ := Nat.exists_eq_add_of_lt hfuel
    obtain ⟨a, ha⟩ := hs.holds
    have hcount := ha.count
    have hroot : a.viewSource = none := by
      obtain ⟨x, hx, hroot, -⟩ := hs
      rwa [Option.some.inj (ha.array.symm.trans hx.array)]
    have hi : p - m.base ≤ a.count := by
      unfold Level.stop at hp'
      omega
    rw [insertInternal, ha.array]
    dsimp only
    rw [hroot, Int.toNat_natCast, min_eq_left hi]
    refine Changed.root hs ha.array (rewritten_flag ?_) (array?_setArray ha.array _)
    rw [Level.splice, ← ha.live]
    exact rewritten_insertOwn ha.sized hi v
  | cons l rest ih =>
    obtain ⟨n, rfl⟩ := Nat.exists_eq_add_of_lt hfuel
    obtain ⟨⟨a, ha, hsource, hbase⟩, hlt, hstop, htail⟩ := id hs
    have hcount := ha.count
    have hi : p - m.base ≤ a.count := by
      unfold Level.stop at hp'
      omega
    rw [insertInternal, ha.array]
    dsimp only
    rw [hsource, Int.toNat_natCast, min_eq_left hi]
    dsimp only
    have hset := array?_setArray ha.array ((a.insertOwn (p - m.base) v).flag fromChildView)
    have htail₁ : Stack (h.set m.ref (.array ((a.insertOwn (p - m.base) v).flag fromChildView)))
        l rest := htail.congr fun q hq => by
      rw [hset, if_neg (Nat.ne_of_gt (Nat.lt_of_le_of_lt hq hlt))]
    -- the place is the same one in the source
    have hindex : (a.viewOffset + (p - m.base : ℕ) : ℤ) = ((p - l.base : ℕ) : ℤ) := by omega
    rw [hindex]
    have hrest := ih htail₁ (show rest.length < rest.length + 1 + n by omega) (by omega)
      (by omega) true
    have hnest : (m.change (Level.splice p [v])).stop ≤ (l.change (Level.splice p [v])).stop := by
      rw [Level.stop_splice, Level.stop_splice]
      omega
    refine Changed.view hs ha.array (rewritten_flag ?_) hset hrest hnest
    rw [Level.splice, ← ha.live]
    exact rewritten_insertOwn ha.sized hi v

theorem removeInternal_changed (hs : Stack h m rest) {fuel : ℕ} (hfuel : rest.length < fuel)
    (hp : m.base ≤ p) (hp' : p < m.stop) (fromChildView : Bool) :
    Changed h (removeInternal fuel h m.ref ((p - m.base : ℕ) : ℤ) fromChildView) m rest
      (Level.erase p) fromChildView := by
  induction rest generalizing h m fuel fromChildView with
  | nil =>
    obtain ⟨n, rfl⟩ := Nat.exists_eq_add_of_lt hfuel
    obtain ⟨a, ha⟩ := hs.holds
    have hcount := ha.count
    have hroot : a.viewSource = none := by
      obtain ⟨x, hx, hroot, -⟩ := hs
      rwa [Option.some.inj (ha.array.symm.trans hx.array)]
    have hi : p - m.base < a.count := by
      unfold Level.stop at hp'
      omega
    rw [removeInternal, ha.array]
    dsimp only
    rw [if_neg (by omega), hroot, Int.toNat_natCast]
    refine Changed.root hs ha.array (rewritten_flag ?_) (array?_setArray ha.array _)
    rw [Level.erase, ← ha.live]
    exact rewritten_removeOwn ha.sized hi
  | cons l rest ih =>
    obtain ⟨n, rfl⟩ := Nat.exists_eq_add_of_lt hfuel
    obtain ⟨⟨a, ha, hsource, hbase⟩, hlt, hstop, htail⟩ := id hs
    have hcount := ha.count
    have hi : p - m.base < a.count := by
      unfold Level.stop at hp'
      omega
    rw [removeInternal, ha.array]
    dsimp only
    rw [if_neg (by omega), hsource, Int.toNat_natCast]
    dsimp only
    have hset := array?_setArray ha.array ((a.removeOwn (p - m.base)).flag fromChildView)
    have htail₁ : Stack (h.set m.ref (.array ((a.removeOwn (p - m.base)).flag fromChildView)))
        l rest := htail.congr fun q hq => by
      rw [hset, if_neg (Nat.ne_of_gt (Nat.lt_of_le_of_lt hq hlt))]
    have hindex : (a.viewOffset + (p - m.base : ℕ) : ℤ) = ((p - l.base : ℕ) : ℤ) := by omega
    rw [hindex]
    have hrest := ih htail₁ (show rest.length < rest.length + 1 + n by omega) (by omega)
      (by omega) true
    have hnest : (m.change (Level.erase p)).stop ≤ (l.change (Level.erase p)).stop := by
      rw [Level.stop_erase hp hp', Level.stop_erase (by omega) (by omega)]
      omega
    refine Changed.view hs ha.array (rewritten_flag ?_) hset hrest hnest
    rw [Level.erase, ← ha.live]
    exact rewritten_removeOwn ha.sized hi

/-! ### Cells -/

theorem cell?_obj (h : Heap) (q : Ref) : h.cell? (.obj q) =
    match h.get? q with
    | some (.scalarCell content watch) => some (q, content, watch)
    | _ => none := rfl

theorem cell?_setArray {r : Ref} (ha : h.array? r = some a) (b : ArrayObj) (w : Value) :
    (h.set r (.array b)).cell? w = h.cell? w := by
  cases w with
  | obj q =>
    rw [cell?_obj, cell?_obj]
    by_cases hq : r = q
    · subst hq
      rw [get?_set_self (by rw [get?_of_array? ha]; rfl), get?_of_array? ha]
    · rw [get?_set_ne hq]
  | null => rfl
  | bool b => rfl
  | num n => rfl

theorem cell?_refresh (h : Heap) (r s : Ref) (w : Value) : (h.refresh r s).cell? w = h.cell? w := by
  unfold refresh
  split
  · rename_i a b ha hb
    exact cell?_setArray ha _ w
  · rfl

theorem insertInternal_cell? (fuel : ℕ) (h : Heap) (r : Ref) (index : ℤ) (v : Value)
    (fromChildView : Bool) (w : Value) :
    (insertInternal fuel h r index v fromChildView).cell? w = h.cell? w := by
  induction fuel generalizing h r index fromChildView with
  | zero => rfl
  | succ fuel ih =>
    rw [insertInternal]
    cases ha : h.array? r with
    | none => rfl
    | some a =>
      dsimp only
      cases hsource : a.viewSource with
      | none => exact cell?_setArray ha _ w
      | some s =>
        dsimp only
        split_ifs
        · rw [ih, cell?_setArray ha]
        · rw [cell?_refresh, ih, cell?_setArray ha]

theorem removeInternal_cell? (fuel : ℕ) (h : Heap) (r : Ref) (index : ℤ) (fromChildView : Bool)
    (w : Value) : (removeInternal fuel h r index fromChildView).cell? w = h.cell? w := by
  induction fuel generalizing h r index fromChildView with
  | zero => rfl
  | succ fuel ih =>
    rw [removeInternal]
    cases ha : h.array? r with
    | none => rfl
    | some a =>
      dsimp only
      by_cases hout : index < 0 ∨ index ≥ a.count
      · rw [if_pos hout]
      · rw [if_neg hout]
        cases hsource : a.viewSource with
        | none => exact cell?_setArray ha _ w
        | some s =>
          dsimp only
          split_ifs
          · rw [ih, cell?_setArray ha]
          · rw [cell?_refresh, ih, cell?_setArray ha]

/-- The cell `w` was assigned the value `v`. -/
def Assigned (h h' : Heap) (v w : Value) : Prop :=
  ∃ c content watch, h.cell? w = some (c, content, watch) ∧ h'.cell? w = some (c, v, watch)

/-- The cells are as they were, or were assigned `v`; the latter only those in `chosen`. -/
def Wrote (h h' : Heap) (v : Value) (chosen : Value → Prop) : Prop :=
  ∀ w, h'.cell? w = h.cell? w ∨ (Assigned h h' v w ∧ chosen w)

theorem Wrote.isSome {chosen : Value → Prop} (hw : Wrote h h' v chosen) (w : Value) :
    (h'.cell? w).isSome = (h.cell? w).isSome := by
  rcases hw w with hsame | ⟨⟨c, content, watch, hold, hnew⟩, -⟩
  · rw [hsame]
  · rw [hold, hnew]
    rfl

theorem Wrote.eq_none {chosen : Value → Prop} {w : Value} (hw : Wrote h h' v chosen)
    (hnone : h.cell? w = none) : h'.cell? w = none := by
  rw [← Option.not_isSome_iff_eq_none, hw.isSome, hnone]
  exact Bool.false_ne_true

theorem Assigned.later {chosen : Value → Prop} {w : Value} (ha : Assigned h h₁ v w)
    (hw : Wrote h₁ h₂ v chosen) : Assigned h h₂ v w := by
  obtain ⟨c, content, watch, hold, hnew⟩ := ha
  rcases hw w with hsame | ⟨⟨c', content', watch', hold', hnew'⟩, -⟩
  · exact ⟨c, content, watch, hold, hsame.trans hnew⟩
  · rw [hnew] at hold'
    cases hold'
    exact ⟨c, content, watch, hold, hnew'⟩

theorem Assigned.earlier {chosen : Value → Prop} {w : Value} (hw : Wrote h h₁ v chosen)
    (ha : Assigned h₁ h₂ v w) : Assigned h h₂ v w := by
  obtain ⟨c, content, watch, hold, hnew⟩ := ha
  rcases hw w with hsame | ⟨⟨c', content', watch', hold', hnew'⟩, -⟩
  · exact ⟨c, content, watch, hsame ▸ hold, hnew⟩
  · rw [hnew'] at hold
    cases hold
    exact ⟨c, content', watch, hold', hnew⟩

theorem Wrote.trans {chosen chosen' : Value → Prop} (hw : Wrote h h₁ v chosen)
    (hw' : Wrote h₁ h₂ v chosen') : Wrote h h₂ v fun w => chosen w ∨ chosen' w := by
  intro w
  rcases hw' w with hsame' | ⟨hassigned', hc'⟩
  · rcases hw w with hsame | ⟨hassigned, hc⟩
    · exact .inl (hsame'.trans hsame)
    · exact .inr ⟨hassigned.later hw', .inl hc⟩
  · exact .inr ⟨hassigned'.earlier hw, .inr hc'⟩

theorem Level.write_congr {chosen : Value → Prop} (hw : Wrote h h₁ v chosen) (p : ℕ) (x : Value) :
    Level.write h₁ p x = Level.write h p x := by
  funext l
  rw [Level.write, Level.write, hw.isSome]

/-- The value is an element at the place `p` of one of the levels. -/
def At (p : ℕ) (levels : List Level) (w : Value) : Prop :=
  ∃ l ∈ levels, l.items[p - l.base]? = some w

/-- The write of an element of an array. -/
theorem setOwn_spec {i : ℕ} (hsize : a.count ≤ a.elements.length) (hi : i < a.count)
    (hv : h.cell? v = none) {h₀ : Heap} {x : ArrayObj} (version : ℕ)
    (hwrite : h.writeElement (a.ensureCapacity (i + 1)) i v = (h₀, x)) :
    Rewritten a { x with count := max a.count (i + 1), mutationVersion := version }
        (if (h.cell? (a.live.getD i .null)).isSome then a.live else a.live.set i v) false ∧
      (∀ q, h₀.array? q = h.array? q) ∧
      Wrote h h₀ v (fun w => a.live[i]? = some w) ∧
      ∀ w, a.live[i]? = some w → (h.cell? w).isSome → Assigned h h₀ v w := by
  have hfits : a.ensureCapacity (i + 1) = a := by
    rw [ArrayObj.ensureCapacity, if_pos (by omega)]
  have hmax : max a.count (i + 1) = a.count := max_eq_left hi
  have helement : a.live[i]? = some (a.elements.getD i .null) := by
    rw [live_getElem?, if_pos hi, List.getD_eq_getElem?_getD,
      List.getElem?_eq_getElem (by omega)]
    rfl
  have hgetD : a.live.getD i .null = a.elements.getD i .null := by
    rw [List.getD_eq_getElem?_getD, helement]
    rfl
  rw [hfits, writeElement, if_pos hi] at hwrite
  rw [hgetD, hmax]
  cases hcell : h.cell? (a.elements.getD i .null) with
  | none =>
    rw [hcell] at hwrite
    cases hwrite
    refine ⟨⟨rfl, rfl, fun _ => rfl, ?_, ?_⟩, fun _ => rfl, fun _ => .inl rfl, ?_⟩
    · show a.count ≤ (a.elements.set i v).length
      rwa [List.length_set]
    · exact List.take_set
    · intro w hw hsome
      rw [helement] at hw
      cases hw
      rw [hcell] at hsome
      cases hsome
  | some found =>
    obtain ⟨c, content, watch⟩ := found
    obtain ⟨hobj, hget⟩ := cell?_some hcell
    rw [hcell, hv] at hwrite
    cases hwrite
    have hassigned : Assigned h (h.set c (.scalarCell v watch)) v (.obj c) := by
      refine ⟨c, content, watch, hobj ▸ hcell, ?_⟩
      rw [cell?_obj, get?_set_self (by rw [hget]; rfl)]
    refine ⟨⟨rfl, rfl, fun _ => rfl, hsize, rfl⟩, array?_setCell hget, ?_, ?_⟩
    · intro w
      by_cases hw : w = .obj c
      · subst hw
        exact .inr ⟨hassigned, by rw [helement, hobj]⟩
      · left
        cases w with
        | obj q =>
          rw [cell?_obj, cell?_obj, get?_set_ne fun hq => hw (congrArg Value.obj hq.symm)]
        | null => rfl
        | bool b => rfl
        | num n => rfl
    · intro w hw _
      rw [helement, hobj] at hw
      cases hw
      exact hassigned

/-! ### Assignment -/

/-- The round of `array_set_internal` on one array, for an element it has. -/
theorem setInternal_inside (ha : h.array? m.ref = some a) (hsize : a.count ≤ a.elements.length)
    {i : ℕ} (hi : i < a.count) (hv : h.cell? v = none) (fuel : ℕ) (fromChildView : Bool) :
    ∃ h₀ b, (∀ q, (Heap.array? h₀ q) = if m.ref = q then some b else h.array? q) ∧
      Rewritten a b (if (h.cell? (a.live.getD i .null)).isSome then a.live else a.live.set i v)
        fromChildView ∧
      Wrote h h₀ v (fun w => a.live[i]? = some w) ∧
      (∀ w, a.live[i]? = some w → (h.cell? w).isSome → Assigned h h₀ v w) ∧
      setInternal (fuel + 1) h m.ref i v fromChildView =
        match a.viewSource with
        | none => h₀
        | some s =>
          if fromChildView = true then setInternal fuel h₀ s (a.viewOffset + i) v true
          else (setInternal fuel h₀ s (a.viewOffset + i) v true).refresh m.ref s := by
  obtain ⟨h₀, x, hwrite⟩ : ∃ h₀ x, h.writeElement (a.ensureCapacity (i + 1)) i v = (h₀, x) :=
    ⟨_, _, rfl⟩
  obtain ⟨hrewritten, hsame, hwrote, hassigned⟩ :=
    setOwn_spec hsize hi hv (a.mutationVersion + 1) hwrite
  have ha₀ : h₀.array? m.ref = some a := (hsame _).trans ha
  generalize hb : ({ x with
    count := max a.count (i + 1), mutationVersion := a.mutationVersion + 1 } : ArrayObj) = b
    at hrewritten
  have hcells := cell?_setArray ha₀ (b.flag fromChildView)
  refine ⟨h₀.set m.ref (.array (b.flag fromChildView)), b.flag fromChildView, ?_,
    rewritten_flag hrewritten, ?_, ?_, ?_⟩
  · intro q
    rw [array?_setArray ha₀, hsame]
  · intro w
    rw [hcells]
    refine (hwrote w).imp id (And.imp ?_ id)
    rintro ⟨c, content, watch, hold, hnew⟩
    exact ⟨c, content, watch, hold, (hcells w).trans hnew⟩
  · intro w hw hsome
    obtain ⟨c, content, watch, hold, hnew⟩ := hassigned w hw hsome
    exact ⟨c, content, watch, hold, (hcells w).trans hnew⟩
  · rw [setInternal, ha]
    dsimp only
    rw [if_neg (by omega), Int.toNat_natCast, hwrite]
    dsimp only
    rw [hb, Nat.sub_eq_zero_of_le (Nat.le_of_lt hi)]
    cases a.viewSource with
    | none => rfl
    | some s =>
      dsimp only
      rw [if_pos hi]
      rfl

theorem setInternal_changed (hs : Stack h m rest) {fuel : ℕ} (hfuel : rest.length < fuel)
    (hp : m.base ≤ p) (hp' : p < m.stop) (hv : h.cell? v = none) (fromChildView : Bool) :
    Changed h (setInternal fuel h m.ref ((p - m.base : ℕ) : ℤ) v fromChildView) m rest
        (Level.write h p v) fromChildView ∧
      Wrote h (setInternal fuel h m.ref ((p - m.base : ℕ) : ℤ) v fromChildView) v
        (At p (m :: rest)) ∧
      ∀ w, At p (m :: rest) w → (h.cell? w).isSome →
        Assigned h (setInternal fuel h m.ref ((p - m.base : ℕ) : ℤ) v fromChildView) v w := by
  induction rest generalizing h m fuel fromChildView with
  | nil =>
    obtain ⟨n, rfl⟩ := Nat.exists_eq_add_of_lt hfuel
    obtain ⟨a, ha⟩ := hs.holds
    have hcount := ha.count
    have hroot : a.viewSource = none := by
      obtain ⟨x, hx, hroot, -⟩ := hs
      rwa [Option.some.inj (ha.array.symm.trans hx.array)]
    have hi : p - m.base < a.count := by
      unfold Level.stop at hp'
      omega
    obtain ⟨h₀, b, hset, hb, hwrote, hassigned, heq⟩ :=
      setInternal_inside ha.array ha.sized hi hv (([] : List Level).length + n) fromChildView
    rw [heq, hroot]
    dsimp only
    rw [ha.live] at hb hwrote hassigned
    refine ⟨Changed.root hs ha.array hb hset, ?_, ?_⟩
    · exact fun w => (hwrote w).imp id (And.imp id fun hw => ⟨m, List.mem_cons_self, hw⟩)
    · rintro w ⟨l, hl, hw⟩ hsome
      obtain rfl := List.mem_singleton.1 hl
      exact hassigned w hw hsome
  | cons l rest ih =>
    obtain ⟨n, rfl⟩ := Nat.exists_eq_add_of_lt hfuel
    obtain ⟨⟨a, ha, hsource, hbase⟩, hlt, hstop, htail⟩ := id hs
    have hcount := ha.count
    have hi : p - m.base < a.count := by
      unfold Level.stop at hp'
      omega
    obtain ⟨h₀, b, hset, hb, hwrote, hassigned, heq⟩ :=
      setInternal_inside ha.array ha.sized hi hv (rest.length + 1 + n) fromChildView
    rw [List.length_cons, heq, hsource]
    dsimp only
    rw [ha.live] at hb hwrote hassigned
    have htail₀ : Stack h₀ l rest := htail.congr fun q hq => by
      rw [hset, if_neg (Nat.ne_of_gt (Nat.lt_of_le_of_lt hq hlt))]
    have hv₀ := hwrote.eq_none hv
    have hindex : (a.viewOffset + (p - m.base : ℕ) : ℤ) = ((p - l.base : ℕ) : ℤ) := by omega
    rw [hindex]
    obtain ⟨hrest, hwroteRest, hassignedRest⟩ := ih htail₀
      (show rest.length < rest.length + 1 + n by omega) (by omega) (by omega) hv₀ true
    generalize setInternal (rest.length + 1 + n) h₀ l.ref _ v true = h₂
      at hrest hwroteRest hassignedRest
    rw [Level.write_congr hwrote] at hrest
    have hnest : (m.change (Level.write h p v)).stop ≤ (l.change (Level.write h p v)).stop := by
      rw [Level.stop_write, Level.stop_write]
      exact hstop
    -- the note of the version touches no cell
    have hcells : ∀ w, (if fromChildView = true then h₂ else h₂.refresh m.ref l.ref).cell? w =
        h₂.cell? w := by
      intro w
      split_ifs
      · rfl
      · exact cell?_refresh h₂ _ _ w
    refine ⟨Changed.view hs ha.array hb hset hrest hnest, ?_, ?_⟩
    · intro w
      rcases hwrote.trans hwroteRest w with hsame | ⟨⟨c, content, watch, hold, hnew⟩, hw⟩
      · exact .inl ((hcells w).trans hsame)
      · refine .inr ⟨⟨c, content, watch, hold, (hcells w).trans hnew⟩, ?_⟩
        rcases hw with hw | ⟨l', hl', hw⟩
        · exact ⟨m, List.mem_cons_self, hw⟩
        · exact ⟨l', List.mem_cons_of_mem _ hl', hw⟩
    · rintro w ⟨l', hl', hw⟩ hsome
      have hdone : Assigned h h₂ v w := by
        rcases List.mem_cons.1 hl' with rfl | hl'
        · exact (hassigned w hw hsome).later hwroteRest
        · refine Assigned.earlier hwrote (hassignedRest w ⟨l', hl', hw⟩ ?_)
          rw [hwrote.isSome]
          exact hsome
      obtain ⟨c, content, watch, hold, hnew⟩ := hdone
      exact ⟨c, content, watch, hold, (hcells w).trans hnew⟩

/-! ### Assignment past the end -/

theorem Changed.trans (hc : Changed h h₁ m rest g true) {g' : Level → List Value}
    (hc' : Changed h₁ h₂ (m.change g) (rest.map (Level.change g)) g' true) :
    Changed h h₂ m rest (fun l => g' (l.change g)) true where
  stack := by
    have hstack := hc'.stack
    rw [List.map_map] at hstack
    exact hstack
  above q hq := (hc'.above q hq).trans (hc.above q hq)
  valid hno := by cases hno

theorem Changed.congr (hc : Changed h h' m rest g fromChildView) {g' : Level → List Value}
    (hg : ∀ l ∈ m :: rest, g l = g' l) : Changed h h' m rest g' fromChildView where
  stack := by
    have hlevel : ∀ l ∈ m :: rest, l.change g = l.change g' := fun l hl => by
      rw [Level.change, Level.change, hg l hl]
    have hstack := hc.stack
    rw [hlevel m List.mem_cons_self,
      List.map_congr_left fun l hl => hlevel l (List.mem_cons_of_mem _ hl)] at hstack
    exact hstack
  above := hc.above
  valid := hc.valid

theorem Level.splice_splice {q : ℕ} (hq : l.base ≤ q) (hq' : q ≤ l.stop) (vs ws : List Value) :
    Level.splice (q + vs.length) ws (l.change (Level.splice q vs)) = Level.splice q (vs ++ ws) l := by
  have hlen : (l.items.take (q - l.base) ++ vs).length = q + vs.length - l.base := by
    unfold Level.stop at hq'
    rw [List.length_append, List.length_take]
    omega
  show (l.items.take (q - l.base) ++ vs ++ l.items.drop (q - l.base)).take _ ++ ws ++
    (l.items.take (q - l.base) ++ vs ++ l.items.drop (q - l.base)).drop _ = _
  rw [show (l.change (Level.splice q vs)).base = l.base from rfl, List.take_left' hlen,
    List.drop_left' hlen, Level.splice]
  simp only [List.append_assoc]

theorem foldl_insertInternal_changed (hs : Stack h m rest) {fuel : ℕ} (hfuel : rest.length < fuel)
    (k : ℕ) {q : ℕ} (hq : m.base ≤ q) (hq' : q ≤ m.stop) :
    Changed h ((List.range' (q - m.base) k).foldl
      (fun h (j : ℕ) => insertInternal fuel h m.ref (j : ℤ) .null true) h) m rest
      (Level.splice q (List.replicate k .null)) true := by
  induction k generalizing h m rest q with
  | zero =>
    have hsame : ∀ l : Level, l.change (Level.splice q []) = l := by
      intro l
      rw [Level.change, Level.splice, List.append_nil, List.take_append_drop]
    refine ⟨?_, fun _ _ => rfl, fun hno => by cases hno⟩
    show Stack h (m.change (Level.splice q [])) (rest.map (Level.change (Level.splice q [])))
    rw [hsame, List.map_congr_left fun l _ => hsame l, List.map_id']
    exact hs
  | succ k ih =>
    rw [List.range'_succ, List.foldl_cons]
    have hfirst := insertInternal_changed hs hfuel hq hq' .null true
    have hstop : q + 1 ≤ (m.change (Level.splice q [.null])).stop := by
      rw [Level.stop_splice]
      exact Nat.succ_le_succ hq'
    have hlater := ih hfirst.stack (by rwa [List.length_map]) (q := q + 1) (Nat.le_succ_of_le hq) hstop
    have hindex : q - m.base + 1 = q + 1 - (m.change (Level.splice q [.null])).base := by
      show q - m.base + 1 = q + 1 - m.base
      omega
    rw [hindex]
    refine (hfirst.trans hlater).congr fun l hl => ?_
    obtain ⟨hbase, hend⟩ := hs.mem hl
    exact Level.splice_splice (hbase.trans hq) (hq'.trans hend) [.null] _

/-- The round of `array_set_internal` on a view, for a place past its end. -/
theorem rewritten_setPast {i : ℕ} (hsize : a.count ≤ a.elements.length) (hi : a.count ≤ i)
    (hslack : ∀ j, a.count ≤ j → j < i → a.elements.getD j .null = .null) (v : Value)
    (version : ℕ) :
    Rewritten a { (a.ensureCapacity (i + 1)) with
        elements := (a.ensureCapacity (i + 1)).elements.set i v
        count := max a.count (i + 1)
        mutationVersion := version }
      (a.live ++ (List.replicate (i - a.count) .null ++ [v])) false := by
  obtain ⟨hk, -, -⟩ := kept_ensureCapacity a (i + 1)
  have hroom := ArrayObj.le_length_ensureCapacity a (i + 1)
  have hmax : max a.count (i + 1) = i + 1 := max_eq_right (Nat.le_succ_of_le hi)
  refine ⟨hk.viewSource, hk.viewOffset, fun _ => viewInvalid_ensureCapacity a _, ?_, ?_⟩
  · show max a.count (i + 1) ≤ ((a.ensureCapacity (i + 1)).elements.set i v).length
    rw [hmax, List.length_set]
    exact hroom
  · refine List.ext_getElem? fun j => ?_
    rw [live_getElem?]
    show (if j < max a.count (i + 1) then
      ((a.ensureCapacity (i + 1)).elements.set i v)[j]? else none) = _
    have hlive : a.live.length = a.count := by
      rw [ArrayObj.live, List.length_take, min_eq_left hsize]
    rw [hmax, List.getElem?_append, hlive, List.getElem?_append, List.length_replicate]
    -- an old element, a slot between the end and the new element, the new element, past it
    rcases Nat.lt_or_ge j a.count with hj | hj
    · rw [if_pos (by omega), if_pos hj, List.getElem?_set_ne (by omega),
        getElem?_ensureCapacity a (by omega), live_getElem?, if_pos hj]
    · rw [if_neg (Nat.not_lt.2 hj)]
      rcases Nat.lt_trichotomy j i with hji | rfl | hji
      · have hnull := hslack j hj hji
        rw [← getD_ensureCapacity a (i + 1), List.getD_eq_getElem?_getD,
          List.getElem?_eq_getElem (by omega), Option.getD_some] at hnull
        rw [if_pos (by omega), if_pos (by omega), List.getElem?_set_ne (by omega),
          List.getElem?_eq_getElem (by omega), hnull, List.getElem?_replicate, if_pos (by omega)]
      · rw [if_pos (Nat.lt_succ_self j), if_neg (Nat.lt_irrefl _), Nat.sub_self,
          List.getElem?_set_self (by omega)]
        rfl
      · rw [if_neg (by omega), if_neg (by omega)]
        obtain ⟨k, hk⟩ := Nat.exists_eq_add_of_lt (show 0 < j - a.count - (i - a.count) by omega)
        rw [hk]
        rfl

theorem foldl_gap (fuel : ℕ) (h : Heap) (s : Ref) (offset count k : ℕ) :
    (List.range' count k).foldl (fun h j => insertInternal fuel h s (offset + j) .null true) h =
      (List.range' (offset + count) k).foldl
        (fun h (j : ℕ) => insertInternal fuel h s (j : ℤ) .null true) h := by
  induction k generalizing h count with
  | zero => rfl
  | succ k ih =>
    rw [List.range'_succ, List.range'_succ, List.foldl_cons, Nat.add_assoc, ← ih]
    rfl

theorem foldl_insertInternal_cell? (fuel : ℕ) (h : Heap) (s : Ref) (js : List ℕ) (w : Value) :
    (js.foldl (fun h (j : ℕ) => insertInternal fuel h s (j : ℤ) .null true) h).cell? w =
      h.cell? w := by
  induction js generalizing h with
  | nil => rfl
  | cons j js ih => rw [List.foldl_cons, ih, insertInternal_cell?]

/-- An assignment past the end of a view inserts the gap in its source. -/
theorem setInternal_past (hs : Stack h m rest) {fuel : ℕ} (hfuel : rest.length < fuel)
    (hp : m.stop ≤ p) (v : Value)
    (hslack : ∀ a, h.array? m.ref = some a → ∀ j, a.count ≤ j → j < p - m.base →
      a.elements.getD j .null = .null) :
    Changed h (setInternal fuel h m.ref ((p - m.base : ℕ) : ℤ) v false) m rest
        (Level.splice m.stop (List.replicate (p - m.stop) .null ++ [v])) false ∧
      ∀ w, (setInternal fuel h m.ref ((p - m.base : ℕ) : ℤ) v false).cell? w = h.cell? w := by
  obtain ⟨n, rfl⟩ := Nat.exists_eq_add_of_lt hfuel
  obtain ⟨a, ha⟩ := hs.holds
  have hcount := ha.count
  have hstop : m.stop = m.base + a.count := by rw [hcount, Level.stop]
  have hi : a.count ≤ p - m.base := by omega
  have hb := rewritten_setPast ha.sized hi (hslack a ha.array) v (a.mutationVersion + 1)
  have hgap : p - m.base - a.count = p - m.stop := by omega
  have hitems : a.live ++ (List.replicate (p - m.base - a.count) .null ++ [v]) =
      Level.splice m.stop (List.replicate (p - m.stop) .null ++ [v]) m := by
    have hall : m.stop - m.base = m.items.length := by
      rw [Level.stop]
      omega
    rw [Level.splice, hall, List.take_length, List.drop_length, List.append_nil, ha.live, hgap]
  rw [hitems] at hb
  have hwrite : h.writeElement (a.ensureCapacity (p - m.base + 1)) (p - m.base) v =
      (h, { (a.ensureCapacity (p - m.base + 1)) with
        elements := (a.ensureCapacity (p - m.base + 1)).elements.set (p - m.base) v }) := by
    rw [writeElement, if_neg (by rw [ArrayObj.ensureCapacity_count]; omega)]
  rw [setInternal, ha.array]
  dsimp only
  rw [if_neg (by omega), Int.toNat_natCast, hwrite]
  dsimp only
  generalize (ArrayObj.mk _ _ _ _ _ _ _ _) = b at hb ⊢
  have hset := array?_setArray ha.array (b.flag false)
  have hcells := cell?_setArray ha.array (b.flag false)
  cases rest with
  | nil =>
    obtain ⟨x, hx, hroot, -⟩ := id hs
    obtain rfl := Option.some.inj (ha.array.symm.trans hx.array)
    rw [hroot]
    exact ⟨Changed.root hs ha.array (rewritten_flag hb) hset, hcells⟩
  | cons l rest =>
    obtain ⟨⟨x, hx, hsource, hbase⟩, hlt, hnest, htail⟩ := id hs
    obtain rfl := Option.some.inj (ha.array.symm.trans hx.array)
    rw [hsource]
    dsimp only
    have hplace : a.viewOffset + a.count = m.stop - l.base := by omega
    have hindex : (a.viewOffset + (p - m.base : ℕ) : ℤ) = ((p - l.base : ℕ) : ℤ) := by omega
    rw [if_neg (Nat.not_lt.2 hi), foldl_gap, hplace, hgap, hindex]
    have htail₁ : Stack (h.set m.ref (.array (b.flag false))) l rest := htail.congr fun q hq => by
      rw [hset, if_neg (Nat.ne_of_gt (Nat.lt_of_le_of_lt hq hlt))]
    -- the gap, and then the new element
    have hnulls := foldl_insertInternal_changed htail₁
      (show rest.length < rest.length + 1 + n by omega) (p - m.stop) (q := m.stop) (by omega) hnest
    have hend : p ≤ (l.change (Level.splice m.stop (List.replicate (p - m.stop) .null))).stop := by
      rw [Level.stop_splice, List.length_replicate]
      omega
    have hlast := insertInternal_changed hnulls.stack
      (show (rest.map _).length < rest.length + 1 + n by rw [List.length_map]; omega) (p := p) (show l.base ≤ p by omega) hend v true
    have hrest : Changed _ _ l rest (Level.splice m.stop
        (List.replicate (p - m.stop) .null ++ [v])) true :=
      (hnulls.trans hlast).congr fun l' hl' => by
        obtain ⟨hlow, hhigh⟩ := htail.mem hl'
        have hjoin := Level.splice_splice (show l'.base ≤ m.stop by omega) (hnest.trans hhigh)
          (List.replicate (p - m.stop) .null) [v]
        rwa [List.length_replicate, Nat.add_sub_cancel' hp] at hjoin
    refine ⟨Changed.view hs ha.array (rewritten_flag hb) hset hrest ?_, ?_⟩
    · rw [Level.stop_splice, Level.stop_splice]
      omega
    · intro w
      rw [if_neg Bool.false_ne_true, cell?_refresh, insertInternal_cell?,
        foldl_insertInternal_cell?, hcells]

end Levels

end Heap

end Slp
