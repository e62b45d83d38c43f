import Mathlib.Data.List.Nodup
import Slp.Object.HashOrder
import Slp.Vm.Stringify

/-!
# The reference rendering

What `slp_vm_stringify` is for: every container is written in full where it is met first and by its
number from then on.

* `Renders`: the rendering as a relation, by the pieces a text is made of, with the containers met so far;
* `Printable`: a graph of arrays, hashes, scalars, cells and tainted values;
* `exists_renders`: every such graph has a rendering, whatever its cycles;
* `stringifyValue_eq`: the traversal, which looks no deeper than 32 and notes no more than 64
  containers, writes the rendering of a graph that keeps to that.
-/

namespace Slp

namespace Heap

/-- A part of a text: bytes, or a value, quoted or not. -/
inductive Piece where
  | text (t : Bytes)
  | value (v : Value) (quoteStrings : Bool)

/-- Lists of pieces with commas between them. -/
def separated (items : List (List Piece)) : List Piece := [Piece.text (ascii ", ")].intercalate items

/-- An array in full. -/
def arrayPieces (a : ArrayObj) : List Piece :=
  .text (ascii "@(") :: (separated (a.live.map fun v => [.value v true]) ++ [.text (ascii ")")])

/-- A hash in full, by its entries. -/
def hashPieces (es : List HashEntry) : List Piece :=
  .text (ascii "%(") :: (separated (es.map fun e => [.value e.key false, .text (ascii " => "),
    .value e.value true]) ++ [.text (ascii ")")])

section

variable (C : CLib) (h : Heap)

/-- The text of a scalar. -/
def scalarText? (v : Value) (quoteStrings : Bool) : Option Bytes :=
  match v with
  | .null => some []
  | .bool x => some (ascii (if x then "true" else "false"))
  | .num n => some (C.formatNum n)
  | .obj r => match h.get? r with
    | some (.string s) =>
      let quote := if quoteStrings then ascii "'" else []
      some (quote ++ s.chars ++ quote)
    | some (.long n) => some (ascii (toString n) ++ if quoteStrings then ascii "L" else [])
    | some (.double bits) => some (C.formatSleepDouble bits)
    | _ => none

/-- The visible entries of a hash in its order. -/
def Visible (t : HashObj) (es : List HashEntry) : Prop :=
  ∃ slots : List ℕ, slots.Perm (HashObj.slots t) ∧
    slots.Pairwise (fun p q => HashObj.entryPrecedes C.printf h t p q = true) ∧
    es = (slots.map fun p => t.entries.getD p {}).filter fun e => e.value ≠ .null

/-- The mark of a container that was met before. -/
def containerMark? (r : Ref) : Option Bytes :=
  match h.get? r with
  | some (.array _) => some (ascii "@")
  | some (.hash _) => some (ascii "%")
  | _ => none

/-- Pieces with their text, and the containers met before and after them, where no way down from a piece
over containers met for the first time has more than a number of values.  Cells do not count. -/
inductive Renders : ℕ → List Ref → List Piece → Bytes → List Ref → Prop where
  | nil {n : ℕ} {met : List Ref} : Renders n met [] [] met
  | text {n : ℕ} {met met' : List Ref} {t out : Bytes} {ps : List Piece} (hps : Renders n met ps out met') :
    Renders n met (.text t :: ps) (t ++ out) met'
  | scalar {n : ℕ} {met met' : List Ref} {v : Value} {q : Bool} {t out : Bytes} {ps : List Piece}
      (hv : h.scalarText? C v q = some t) (hps : Renders (n + 1) met ps out met') :
      Renders (n + 1) met (.value v q :: ps) (t ++ out) met'
  | cell {n : ℕ} {met met' : List Ref} {r : Ref} {v : Value} {w : Option Ref} {q : Bool} {out : Bytes}
      {ps : List Piece} (hr : h.get? r = some (.scalarCell v w))
      (hps : Renders n met (.value v q :: ps) out met') : Renders n met (.value (.obj r) q :: ps) out met'
  | tainted {n : ℕ} {met met₁ met' : List Ref} {r : Ref} {v : Value} {q : Bool} {t out : Bytes}
      {ps : List Piece} (hr : h.get? r = some (.tainted v)) (hv : Renders n met [.value v q] t met₁)
      (hps : Renders (n + 1) met₁ ps out met') :
      Renders (n + 1) met (.value (.obj r) q :: ps) (t ++ out) met'
  | again {n : ℕ} {met met' : List Ref} {r : Ref} {q : Bool} {mark out : Bytes} {ps : List Piece}
      (hr : h.containerMark? r = some mark) (hmet : r ∈ met) (hps : Renders (n + 1) met ps out met') :
      Renders (n + 1) met (.value (.obj r) q :: ps) (mark ++ ascii (toString (met.idxOf r)) ++ out) met'
  | array {n : ℕ} {met met₁ met' : List Ref} {r : Ref} {a : ArrayObj} {q : Bool} {t out : Bytes}
      {ps : List Piece} (hr : h.get? r = some (.array a)) (hnew : r ∉ met)
      (ha : Renders n (met ++ [r]) (arrayPieces a) t met₁) (hps : Renders (n + 1) met₁ ps out met') :
      Renders (n + 1) met (.value (.obj r) q :: ps) (t ++ out) met'
  | hash {n : ℕ} {met met₁ met' : List Ref} {r : Ref} {u : HashObj} {es : List HashEntry} {q : Bool}
      {t out : Bytes} {ps : List Piece} (hr : h.get? r = some (.hash u)) (hnew : r ∉ met)
      (hes : Visible C h u es) (hu : Renders n (met ++ [r]) (hashPieces es) t met₁)
      (hps : Renders (n + 1) met₁ ps out met') :
      Renders (n + 1) met (.value (.obj r) q :: ps) (t ++ out) met'

/-- `slp_vm_stringify`: a string is returned as it is, and the length of another text is cast to
`uint32_t`. -/
def vmStringify (v : Value) : Option Bytes :=
  match v with
  | .obj r => match h.get? r with
    | some (.string s) => some s.chars
    | _ => (h.stringify? C v).map fun chars => chars.take (chars.length % 2 ^ 32)
  | _ => (h.stringify? C v).map fun chars => chars.take (chars.length % 2 ^ 32)

end

section

variable {C : CLib} {h : Heap} {n m : ℕ} {met met' met₁ : List Ref} {ps ps' : List Piece} {p : Piece}
  {out out' : Bytes} {v w : Value} {r : Ref} {b : StringBuilder}

/-! ### Renderings -/

theorem Renders.append (hps : Renders C h n met ps out met₁) (hps' : Renders C h n met₁ ps' out' met') :
    Renders C h n met (ps ++ ps') (out ++ out') met' := by
  induction hps with
  | nil => exact hps'
  | text _ ih => exact List.append_assoc .. ▸ .text (ih hps')
  | scalar hv _ ih => exact List.append_assoc .. ▸ .scalar hv (ih hps')
  | cell hr _ ih => exact .cell hr (ih hps')
  | tainted hr hv _ _ ih => exact List.append_assoc .. ▸ .tainted hr hv (ih hps')
  | again hr hmet _ ih => exact List.append_assoc .. ▸ .again hr hmet (ih hps')
  | array hr hnew ha _ _ ih => exact List.append_assoc .. ▸ .array hr hnew ha (ih hps')
  | hash hr hnew hes hu _ _ ih => exact List.append_assoc .. ▸ .hash hr hnew hes hu (ih hps')

theorem exists_of_succ_le (h : n + 1 ≤ m) : ∃ k, m = k + 1 ∧ n ≤ k := ⟨m - 1, by omega, by omega⟩

/-- Longer ways may be allowed. -/
theorem Renders.mono (hps : Renders C h n met ps out met') (hle : n ≤ m) :
    Renders C h m met ps out met' := by
  induction hps generalizing m with
  | nil => exact .nil
  | text _ ih => exact .text (ih hle)
  | cell hr _ ih => exact .cell hr (ih hle)
  | scalar hv _ ih =>
    obtain ⟨k, rfl, -⟩ := exists_of_succ_le hle
    exact .scalar hv (ih hle)
  | tainted hr _ _ ihv ih =>
    obtain ⟨k, rfl, hk⟩ := exists_of_succ_le hle
    exact .tainted hr (ihv hk) (ih hle)
  | again hr hmet _ ih =>
    obtain ⟨k, rfl, -⟩ := exists_of_succ_le hle
    exact .again hr hmet (ih hle)
  | array hr hnew _ _ iha ih =>
    obtain ⟨k, rfl, hk⟩ := exists_of_succ_le hle
    exact .array hr hnew (iha hk) (ih hle)
  | hash hr hnew hes _ _ ihu ih =>
    obtain ⟨k, rfl, hk⟩ := exists_of_succ_le hle
    exact .hash hr hnew hes (ihu hk) (ih hle)

/-- Containers are only added. -/
theorem Renders.isPrefix (hps : Renders C h n met ps out met') : met <+: met' := by
  induction hps with
  | nil => exact List.prefix_rfl
  | text _ ih => exact ih
  | scalar _ _ ih => exact ih
  | cell _ _ ih => exact ih
  | tainted _ _ _ ihv ih => exact ihv.trans ih
  | again _ _ _ ih => exact ih
  | array _ _ _ _ iha ih => exact (List.prefix_append _ _).trans (iha.trans ih)
  | hash _ _ _ _ _ ihu ih => exact (List.prefix_append _ _).trans (ihu.trans ih)

/-- Each container is noted once, and is one of the graph. -/
theorem Renders.nodup (hps : Renders C h n met ps out met') (hmet : met.Nodup) : met'.Nodup := by
  have hnew : ∀ {met : List Ref} {r : Ref}, met.Nodup → r ∉ met → (met ++ [r]).Nodup := by
    intro met r hmet hr
    exact List.nodup_append.2 ⟨hmet, List.nodup_cons.2 ⟨List.not_mem_nil, .nil⟩,
      fun x hx y hy hxy => hr (List.mem_singleton.1 hy ▸ hxy ▸ hx)⟩
  induction hps with
  | nil => exact hmet
  | text _ ih => exact ih hmet
  | scalar _ _ ih => exact ih hmet
  | cell _ _ ih => exact ih hmet
  | tainted _ _ _ ihv ih => exact ih (ihv hmet)
  | again _ _ _ ih => exact ih hmet
  | array _ hr _ _ iha ih => exact ih (iha (hnew hmet hr))
  | hash _ hr _ _ _ ihu ih => exact ih (ihu (hnew hmet hr))

/-! ### Cells -/

theorem derefLoop_cell {x : Option Ref} (hr : h.get? r = some (.scalarCell v x)) (fuel : ℕ) :
    h.derefLoop (fuel + 1) (.obj r) = h.derefLoop fuel v := by
  rw [derefLoop, hr]

theorem derefLoop_add (h : Heap) (m n : ℕ) (v : Value) :
    h.derefLoop (m + n) v = h.derefLoop n (h.derefLoop m v) := by
  induction m generalizing v with
  | zero => rw [Nat.zero_add]; rfl
  | succ m ih =>
    cases hv : h.isCell v with
    | false => rw [derefLoop_of_not_cell hv, derefLoop_of_not_cell hv, derefLoop_of_not_cell hv]
    | true =>
      obtain ⟨r, rfl⟩ := eq_obj_of_isCell hv
      obtain ⟨v, w, hr⟩ := exists_of_isCell hv
      rw [Nat.add_right_comm, derefLoop_cell hr, derefLoop_cell hr, ih]

/-- A chain of cells that ends is no longer than the heap. -/
theorem not_isCell_dereferenceValue {k : ℕ} (hk : h.isCell (h.derefLoop k v) = false) :
    h.isCell (h.dereferenceValue v) = false := by
  classical
  have hex : ∃ k, h.isCell (h.derefLoop k v) = false := ⟨k, hk⟩
  obtain ⟨k, hk, hmin⟩ : ∃ k, h.isCell (h.derefLoop k v) = false ∧
      ∀ i < k, h.isCell (h.derefLoop i v) = true :=
    ⟨Nat.find hex, Nat.find_spec hex, fun i hi => by simpa using Nat.find_min hex hi⟩
  -- the cells before the end are different ones
  have hne : ∀ i j, i < j → j < k → h.derefLoop i v ≠ h.derefLoop j v := by
    intro i j hij hjk heq
    have hsame : h.derefLoop (i + (k - j)) v = h.derefLoop (j + (k - j)) v := by
      rw [derefLoop_add, heq, ← derefLoop_add]
    have hshort := hmin (i + (k - j)) (by omega)
    rw [hsame, Nat.add_sub_cancel' (Nat.le_of_lt hjk), hk] at hshort
    cases hshort
  have hnodup : ((List.range k).map fun i => h.derefLoop i v).Nodup := by
    refine List.pairwise_map.2 (List.Pairwise.imp_of_mem ?_ List.pairwise_lt_range)
    intro i j _ hj hij
    exact hne i j hij (List.mem_range.1 hj)
  have hsub : ((List.range k).map fun i => h.derefLoop i v) ⊆ h.map fun c => .obj c.ref := by
    intro x hx
    obtain ⟨i, hi, rfl⟩ := List.mem_map.1 hx
    have hcell := hmin i (List.mem_range.1 hi)
    obtain ⟨r, hr⟩ := eq_obj_of_isCell hcell
    rw [hr] at hcell ⊢
    obtain ⟨w, x, hget⟩ := exists_of_isCell hcell
    obtain ⟨c, hc, rfl, -⟩ := exists_mem_of_get? hget
    exact List.mem_map_of_mem hc
  have hle : k ≤ h.length := by
    have hlength := (List.subperm_of_subset hnodup hsub).length_le
    rwa [List.length_map, List.length_range, List.length_map] at hlength
  rw [dereferenceValue, ← Nat.add_sub_cancel' hle, derefLoop_add, derefLoop_of_not_cell hk]
  exact hk

/-- A cell is looked through. -/
theorem dereferenceValue_cell {k : ℕ} {x : Option Ref} (hr : h.get? r = some (.scalarCell v x))
    (hk : h.isCell (h.derefLoop k v) = false) :
    h.dereferenceValue (.obj r) = h.dereferenceValue v := by
  have hend := not_isCell_dereferenceValue hk
  have hend' : h.isCell (h.dereferenceValue (.obj r)) = false :=
    not_isCell_dereferenceValue (k := k + 1) (by rwa [derefLoop_cell hr])
  have hstep := derefLoop_of_not_cell hend' 1
  rw [dereferenceValue, ← derefLoop_add, derefLoop_cell hr] at hstep
  exact hstep.symm

/-! ### Entries -/

theorem printedEntries_eq (C : CLib) (h : Heap) (t : HashObj) : h.printedEntries C t =
    ((HashObj.ordered C.printf h t).map fun p => t.entries.getD p {}).filter fun e => e.value ≠ .null := by
  have hcast : (do let ordinal ← List.range t.count; pure (ordinal : ℤ)) =
      (List.range t.count).map fun ordinal : ℕ => (ordinal : ℤ) := List.flatMap_pure_eq_map ..
  rw [printedEntries, hcast, List.filterMap_map, HashObj.ordered, List.map_filterMap]
  rfl

/-- The entries that are printed are the visible ones, in the order of the table. -/
theorem visible_printedEntries {t : HashObj} {es : List HashEntry} (ho : HashObj.InOrder t es) :
    Visible C h t (h.printedEntries C t) := by
  obtain ⟨β, _, f, hprec, hf, -⟩ := HashObj.exists_order C.printf h ho.nodup_sequence
  obtain ⟨slots, hperm, hasc⟩ := Table.exists_ascending hf
  obtain ⟨-, heq⟩ := HashObj.ordered_eq ho.sized (fun p _ q _ => hprec p q) hperm hasc
  refine ⟨slots, hperm, hasc.imp fun hlt => (hprec _ _).2 hlt, ?_⟩
  rw [printedEntries_eq, heq]

theorem Visible.eq_printedEntries {t : HashObj} {es es' : List HashEntry} (ho : HashObj.InOrder t es)
    (h' : Visible C h t es') : es' = h.printedEntries C t := by
  obtain ⟨slots, hperm, hprecedes, rfl⟩ := h'
  obtain ⟨β, _, f, hprec, -, -⟩ := HashObj.exists_order C.printf h ho.nodup_sequence
  obtain ⟨-, heq⟩ := HashObj.ordered_eq ho.sized (fun p _ q _ => hprec p q) hperm
    (hprecedes.imp fun hlt => (hprec _ _).1 hlt)
  rw [printedEntries_eq, heq]

/-! ### The traversal -/

/-- A piece written to a builder, with `item` for a value. -/
def writePiece (item : StringBuilder → Value → Bool → StringBuilder) (b : StringBuilder) :
    Piece → StringBuilder
  | .text t => b.append t
  | .value v q => item b v q

def writePieces (item : StringBuilder → Value → Bool → StringBuilder) (b : StringBuilder)
    (ps : List Piece) : StringBuilder := ps.foldl (writePiece item) b

/-- The items of a container are written piece by piece. -/
theorem items_eq_writePieces {α : Type} (item : StringBuilder → Value → Bool → StringBuilder)
    (f : StringBuilder → α → StringBuilder) (pieces : α → List Piece)
    (hf : ∀ b x, f b x = writePieces item b (pieces x)) (b : StringBuilder) (xs : List α) :
    b.items f xs = writePieces item b (separated (xs.map pieces)) := by
  have hrest : ∀ (xs : List α) (b : StringBuilder) (x : α),
      xs.foldl (fun b y => f (b.append (ascii ", ")) y) (f b x) =
        writePieces item b (separated ((x :: xs).map pieces)) := by
    intro xs
    induction xs with
    | nil =>
      intro b x
      rw [List.foldl_nil, hf, List.map_singleton, separated, List.intercalate_singleton]
    | cons y xs ih =>
      intro b x
      rw [List.foldl_cons, ih, hf, List.map_cons, List.map_cons, separated, separated,
        List.map_cons, List.intercalate_cons_cons, writePieces, writePieces, writePieces,
        List.foldl_append, List.foldl_append]
      rfl
  cases xs with
  | nil => rfl
  | cons x xs => exact hrest xs b x

theorem append_nil (b : StringBuilder) : b.append [] = b := by
  rw [StringBuilder.append, List.append_nil]
  split <;> rfl

theorem not_isCell_of_get? {o : Obj} (hr : h.get? r = some o) (ho : ∀ v w, o ≠ .scalarCell v w) :
    h.isCell (.obj r) = false := by
  rw [isCell_obj, hr]
  cases o <;> first | rfl | exact absurd rfl (ho _ _)

theorem not_isCell_of_scalarText {q : Bool} {t : Bytes} (hv : h.scalarText? C v q = some t) :
    h.isCell v = false := by
  cases v with
  | obj r =>
    rw [scalarText?] at hv
    cases hr : h.get? r with
    | none => rw [hr] at hv; cases hv
    | some o =>
      refine not_isCell_of_get? hr ?_
      rintro v w rfl
      rw [hr] at hv
      cases hv
  | _ => rfl

theorem stringifyValue_scalar {q : Bool} {t : Bytes} (hv : h.scalarText? C v q = some t) :
    h.stringifyValue C (n + 1) b v q = b.append t := by
  rw [stringifyValue, dereferenceValue_of_not_cell (not_isCell_of_scalarText hv)]
  cases v with
  | null =>
    cases hv
    exact (append_nil b).symm
  | bool x => cases hv; rfl
  | num x => cases hv; rfl
  | obj r =>
    rw [scalarText?] at hv
    dsimp only
    rw [stringifyObject]
    cases hr : h.get? r with
    | none => rw [hr] at hv; cases hv
    | some o => cases o <;> first | (rw [hr] at hv; cases hv; rfl) | (rw [hr] at hv; cases hv)

theorem containerMark?_eq_some {mark : Bytes} : h.containerMark? r = some mark ↔
    (∃ a, h.get? r = some (.array a)) ∧ mark = ascii "@" ∨
      (∃ t, h.get? r = some (.hash t)) ∧ mark = ascii "%" := by
  rw [containerMark?]
  cases hr : h.get? r with
  | none => simp
  | some o => cases o <;> simp [eq_comm]

/-- A piece that is rendered ends in something that is no cell. -/
theorem Renders.exists_end (hps : Renders C h n met ps out met') {q : Bool} {ps' : List Piece}
    (heq : ps = .value v q :: ps') : ∃ k, h.isCell (h.derefLoop k v) = false := by
  induction hps generalizing v with
  | nil => cases heq
  | text => cases heq
  | scalar hv => cases heq; exact ⟨0, not_isCell_of_scalarText hv⟩
  | cell hr _ ih =>
    cases heq
    obtain ⟨k, hk⟩ := ih rfl
    exact ⟨k + 1, by rwa [derefLoop_cell hr]⟩
  | tainted hr => cases heq; exact ⟨0, not_isCell_of_get? hr nofun⟩
  | again hr =>
    cases heq
    rcases containerMark?_eq_some.1 hr with ⟨⟨a, ha⟩, -⟩ | ⟨⟨t, ht⟩, -⟩
    · exact ⟨0, not_isCell_of_get? ha nofun⟩
    · exact ⟨0, not_isCell_of_get? ht nofun⟩
  | array hr => cases heq; exact ⟨0, not_isCell_of_get? hr nofun⟩
  | hash hr => cases heq; exact ⟨0, not_isCell_of_get? hr nofun⟩

theorem stringifyValue_cell {x : Option Ref} {q : Bool} {ps' : List Piece}
    (hr : h.get? r = some (.scalarCell v x)) (hps : Renders C h n met (.value v q :: ps') out met')
    (m : ℕ) (b : StringBuilder) : h.stringifyValue C m b (.obj r) q = h.stringifyValue C m b v q := by
  obtain ⟨k, hk⟩ := hps.exists_end rfl
  cases m with
  | zero => rfl
  | succ m => rw [stringifyValue, stringifyValue, dereferenceValue_cell hr hk]

/-- An object that is no cell. -/
theorem stringifyValue_obj {o : Obj} (hr : h.get? r = some o) (ho : ∀ v w, o ≠ .scalarCell v w)
    (b : StringBuilder) (q : Bool) : h.stringifyValue C (n + 1) b (.obj r) q =
      h.stringifyObject C (h.stringifyValue C n) b r q := by
  rw [stringifyValue, dereferenceValue_of_not_cell (not_isCell_of_get? hr ho)]

theorem length_lt_of_isPrefix (hmet : met ++ [r] <+: met') (hlength : met'.length ≤ 64) :
    met.length < 64 := by
  have hle := hmet.length_le
  rw [List.length_append, List.length_singleton] at hle
  omega

/-- What may be rendered in full: no more than 64 containers, valid views, and hashes in order. -/
structure Within (h : Heap) (met : List Ref) : Prop where
  length : met.length ≤ 64
  valid : ∀ r ∈ met, h.viewIsValid r = true
  inOrder : ∀ r ∈ met, ∀ t, h.get? r = some (.hash t) → ∃ es, HashObj.InOrder t es

theorem Within.of_isPrefix (hwithin : Within h met') (hmet : met <+: met') : Within h met :=
  ⟨hmet.length_le.trans hwithin.length, fun r hr => hwithin.valid r (hmet.subset hr),
    fun r hr => hwithin.inOrder r (hmet.subset hr)⟩

theorem writePieces_cons (item : StringBuilder → Value → Bool → StringBuilder) (b : StringBuilder)
    (p : Piece) (ps : List Piece) :
    writePieces item b (p :: ps) = writePieces item (writePiece item b p) ps := rfl

theorem writePieces_append (item : StringBuilder → Value → Bool → StringBuilder) (b : StringBuilder)
    (ps ps' : List Piece) :
    writePieces item b (ps ++ ps') = writePieces item (writePieces item b ps) ps' := List.foldl_append

/-- A container that was met is written as its number. -/
theorem stringifyValue_again {mark : Bytes} (hr : h.containerMark? r = some mark) (hmet : r ∈ met)
    (hvalid : h.viewIsValid r = true) (chars : Bytes) (q : Bool) :
    h.stringifyValue C (n + 1) ⟨chars, false, met⟩ (.obj r) q =
      ⟨chars ++ (mark ++ ascii (toString (met.idxOf r))), false, met⟩ := by
  rcases containerMark?_eq_some.1 hr with ⟨⟨a, ha⟩, rfl⟩ | ⟨⟨t, ht⟩, rfl⟩
  · rw [stringifyValue_obj ha (by simp), stringifyObject, ha]
    dsimp only
    rw [if_neg (by simp [hvalid]), if_pos hmet]
    rfl
  · rw [stringifyValue_obj ht (by simp), stringifyObject, ht]
    dsimp only
    rw [if_pos hmet]
    rfl

/-- An array is written in full where it is met first. -/
theorem stringifyValue_array {a : ArrayObj} (hr : h.get? r = some (.array a)) (hnew : r ∉ met)
    (hvalid : h.viewIsValid r = true) (hlength : met.length < 64) (chars : Bytes) (q : Bool) :
    h.stringifyValue C (n + 1) ⟨chars, false, met⟩ (.obj r) q =
      writePieces (h.stringifyValue C n) ⟨chars, false, met ++ [r]⟩ (arrayPieces a) := by
  rw [stringifyValue_obj hr (by simp), stringifyObject, hr]
  dsimp only
  rw [if_neg (by simp [hvalid]), if_neg hnew, if_neg (by omega),
    items_eq_writePieces (h.stringifyValue C n) (fun b v => h.stringifyValue C n b v true)
      (fun v => [.value v true]) fun _ _ => rfl, arrayPieces, writePieces_cons, writePieces_append]
  rfl

/-- And so is a hash. -/
theorem stringifyValue_hash {t : HashObj} {es : List HashEntry} (hr : h.get? r = some (.hash t))
    (hnew : r ∉ met) (hes : es = h.printedEntries C t) (hlength : met.length < 64) (chars : Bytes)
    (q : Bool) : h.stringifyValue C (n + 1) ⟨chars, false, met⟩ (.obj r) q =
      writePieces (h.stringifyValue C n) ⟨chars, false, met ++ [r]⟩ (hashPieces es) := by
  rw [stringifyValue_obj hr nofun, stringifyObject, hr]
  dsimp only
  rw [if_neg hnew, if_neg (by omega), items_eq_writePieces (h.stringifyValue C n)
      (fun b (e : HashEntry) => h.stringifyValue C n ((h.stringifyValue C n b e.key false).append (ascii " => ")) e.value true)
      (fun e => [.value e.key false, .text (ascii " => "), .value e.value true]) fun _ _ => rfl, ← hes, hashPieces, writePieces_cons, writePieces_append]
  rfl

/-- **The traversal writes the rendering.** -/
theorem Renders.writePieces_eq (hps : Renders C h n met ps out met') (hwithin : Within h met')
    (chars : Bytes) : writePieces (h.stringifyValue C n) ⟨chars, false, met⟩ ps =
      ⟨chars ++ out, false, met'⟩ := by
  induction hps generalizing chars with
  | nil => rw [List.append_nil]; rfl
  | text hps ih =>
    rw [writePieces_cons, ← List.append_assoc]
    exact ih hwithin _
  | scalar hv _ ih =>
    rw [writePieces_cons, writePiece, stringifyValue_scalar hv, ← List.append_assoc]
    exact ih hwithin _
  | cell hr hps ih =>
    have hcell := ih hwithin chars
    rw [writePieces_cons, writePiece] at hcell ⊢
    rw [stringifyValue_cell hr hps, hcell]
  | tainted hr hv hps ihv ih =>
    rw [writePieces_cons, writePiece, stringifyValue_obj hr nofun, stringifyObject, hr]
    have hvalue := ihv (hwithin.of_isPrefix hps.isPrefix) chars
    rw [writePieces_cons, writePiece] at hvalue
    dsimp only
    rw [show h.stringifyValue C _ _ _ _ = _ from hvalue, ih hwithin, List.append_assoc]
  | again hr hmet hps ih =>
    have hvalid := hwithin.valid _ (hps.isPrefix.subset hmet)
    rw [writePieces_cons, writePiece, stringifyValue_again hr hmet hvalid, ih hwithin, List.append_assoc]
  | array hr hnew ha hps iha ih =>
    have hin := (List.prefix_append _ _).trans (ha.isPrefix.trans hps.isPrefix)
    have hwithin₁ := hwithin.of_isPrefix hps.isPrefix
    rw [writePieces_cons, writePiece, stringifyValue_array hr hnew
      (hwithin₁.valid _ (ha.isPrefix.subset (List.mem_append_right _ (List.mem_singleton_self _))))
      (length_lt_of_isPrefix ha.isPrefix hwithin₁.length), iha hwithin₁, ih hwithin, List.append_assoc]
  | hash hr hnew hes hu hps ihu ih =>
    have hwithin₁ := hwithin.of_isPrefix hps.isPrefix
    have hmem := hu.isPrefix.subset (List.mem_append_right _ (List.mem_singleton_self _))
    obtain ⟨_, ho⟩ := hwithin₁.inOrder _ hmem _ hr
    rw [writePieces_cons, writePiece, stringifyValue_hash hr hnew (hes.eq_printedEntries ho)
      (length_lt_of_isPrefix hu.isPrefix hwithin₁.length), ihu hwithin₁, ih hwithin, List.append_assoc]

/-! ### Every graph has a rendering -/

/-- The content of a cell or of a tainted value. -/
def Inside (h : Heap) (w v : Value) : Prop :=
  ∃ r, v = .obj r ∧ (h.get? r = some (.tainted w) ∨ ∃ x, h.get? r = some (.scalarCell w x))

/-- An array, a hash, a cell or a tainted value. -/
def isNode : Obj → Bool
  | .array _ | .hash _ | .tainted _ | .scalarCell _ _ => true
  | _ => false

/-- A graph of arrays, hashes, scalars, cells and tainted values: what a value holds is of the graph
too, hashes are in order, and every chain of cells and tainted values ends. -/
structure Printable (C : CLib) (h : Heap) (S : Set Value) : Prop where
  kind : ∀ v ∈ S, (∀ q, (h.scalarText? C v q).isSome) ∨ ∃ r o, v = .obj r ∧ h.get? r = some o ∧ isNode o
  inside : ∀ v ∈ S, ∀ w, Inside h w v → w ∈ S
  array : ∀ r a, .obj r ∈ S → h.get? r = some (.array a) → ∀ v ∈ a.live, v ∈ S
  hash : ∀ r t, .obj r ∈ S → h.get? r = some (.hash t) → (∃ es, HashObj.InOrder t es) ∧
    ∀ e ∈ t.liveEntries, e.value ≠ .null → e.key ∈ S ∧ e.value ∈ S
  chains : ∀ v ∈ S, Acc (Inside h) v

/-- The values of pieces are of the graph. -/
def PiecesIn (S : Set Value) (ps : List Piece) : Prop := ∀ v q, Piece.value v q ∈ ps → v ∈ S

/-- The containers that were not met yet. -/
def unmet (h : Heap) (met : List Ref) : ℕ := ((h.map (·.ref)).filter fun r => r ∉ met).length

theorem filter_unmet_sublist (hmet : met <+: met') :
    ((h.map (·.ref)).filter fun r => r ∉ met').Sublist ((h.map (·.ref)).filter fun r => r ∉ met) := by
  refine List.monotone_filter_right _ fun r hr => ?_
  rw [decide_eq_true_eq] at hr ⊢
  exact fun hin => hr (hmet.subset hin)

theorem unmet_le (hmet : met <+: met') : h.unmet met' ≤ h.unmet met :=
  (filter_unmet_sublist hmet).length_le

theorem unmet_lt {o : Obj} (hr : h.get? r = some o) (hnew : r ∉ met) :
    h.unmet (met ++ [r]) < h.unmet met := by
  refine Nat.lt_of_le_of_ne (unmet_le (List.prefix_append _ _)) fun hsame => ?_
  have heq := (filter_unmet_sublist (h := h) (List.prefix_append met [r])).eq_of_length hsame
  obtain ⟨c, hc, hcr, -⟩ := exists_mem_of_get? hr
  have hin : r ∈ (h.map (·.ref)).filter fun r => r ∉ met :=
    List.mem_filter.2 ⟨hcr ▸ List.mem_map_of_mem hc, decide_eq_true hnew⟩
  rw [← heq] at hin
  exact of_decide_eq_true (List.mem_filter.1 hin).2 (List.mem_append_right _ (List.mem_singleton_self r))

theorem mem_separated {items : List (List Piece)} {v : Value} {q : Bool}
    (hp : Piece.value v q ∈ separated items) : ∃ ps ∈ items, Piece.value v q ∈ ps := by
  induction items with
  | nil => cases hp
  | cons ps items ih =>
    cases items with
    | nil =>
      rw [separated, List.intercalate_singleton] at hp
      exact ⟨ps, List.mem_cons_self, hp⟩
    | cons ps' items =>
      rw [separated, List.intercalate_cons_cons, List.append_assoc, List.mem_append, List.mem_append] at hp
      rcases hp with hp | hp | hp
      · exact ⟨ps, List.mem_cons_self, hp⟩
      · cases List.mem_singleton.1 hp
      · obtain ⟨ps'', hmem, hp⟩ := ih hp
        exact ⟨ps'', List.mem_cons_of_mem _ hmem, hp⟩

/-- The values of a container are those of its items. -/
theorem piecesIn_container {S : Set Value} {items : List (List Piece)} {t t' : Bytes}
    (hitems : ∀ ps ∈ items, PiecesIn S ps) :
    PiecesIn S (.text t :: (separated items ++ [.text t'])) := by
  intro v q hv
  rcases List.mem_cons.1 hv with hv | hv
  · cases hv
  · rcases List.mem_append.1 hv with hv | hv
    · obtain ⟨ps, hps, hv⟩ := mem_separated hv
      exact hitems ps hps v q hv
    · cases List.mem_singleton.1 hv

theorem piecesIn_array {S : Set Value} {a : ArrayObj} (ha : ∀ w ∈ a.live, w ∈ S) :
    PiecesIn S (arrayPieces a) := by
  refine piecesIn_container fun ps hps v q hv => ?_
  obtain ⟨w, hw, rfl⟩ := List.mem_map.1 hps
  cases List.mem_singleton.1 hv
  exact ha v hw

theorem piecesIn_hash {S : Set Value} {t : HashObj} {es : List HashEntry} (hes : Visible C h t es)
    (ht : ∀ e ∈ t.liveEntries, e.value ≠ .null → e.key ∈ S ∧ e.value ∈ S) :
    PiecesIn S (hashPieces es) := by
  have hes : ∀ e ∈ es, e.key ∈ S ∧ e.value ∈ S := by
    obtain ⟨slots, hperm, -, rfl⟩ := hes
    intro e he
    obtain ⟨hmem, hvalue⟩ := List.mem_filter.1 he
    refine ht e ?_ (of_decide_eq_true hvalue)
    rw [← HashObj.map_slots]
    exact (hperm.map _).mem_iff.1 hmem
  refine piecesIn_container fun ps hps v q hv => ?_
  obtain ⟨e, he, rfl⟩ := List.mem_map.1 hps
  simp only [List.mem_cons, List.not_mem_nil, or_false, Piece.value.injEq, reduceCtorEq, false_or] at hv
  rcases hv with ⟨rfl, -⟩ | ⟨rfl, -⟩
  · exact (hes e he).1
  · exact (hes e he).2

/-- A list of pieces can be rendered if each of them can, whatever was met. -/
theorem exists_renders_of_forall {bound : ℕ} {S : Set Value}
    (hvalue : ∀ v ∈ S, ∀ q met, h.unmet met ≤ bound → ∃ n t met', Renders C h n met [.value v q] t met')
    (hps : PiecesIn S ps) (hbound : h.unmet met ≤ bound) : ∃ n t met', Renders C h n met ps t met' := by
  induction ps generalizing met with
  | nil => exact ⟨0, [], met, .nil⟩
  | cons p ps ih =>
    have hps' : PiecesIn S ps := fun v q hv => hps v q (List.mem_cons_of_mem _ hv)
    cases p with
    | text t =>
      obtain ⟨n, out, met', hout⟩ := ih hps' hbound
      exact ⟨n, t ++ out, met', .text hout⟩
    | value v q =>
      obtain ⟨n, t, met₁, ht⟩ := hvalue v (hps v q List.mem_cons_self) q met hbound
      obtain ⟨m, out, met', hout⟩ := ih hps' ((unmet_le ht.isPrefix).trans hbound)
      exact ⟨max n m, t ++ out, met',
        (ht.mono (Nat.le_max_left n m)).append (hout.mono (Nat.le_max_right n m))⟩

/-- Every value of a graph has a rendering, by the number of containers that were not met yet and the
chain of cells and tainted values at the value. -/
theorem exists_renders {S : Set Value} (hS : Printable C h S) (bound : ℕ) :
    ∀ v ∈ S, ∀ q met, h.unmet met ≤ bound → ∃ n t met', Renders C h n met [.value v q] t met' := by
  induction bound using Nat.strong_induction_on with
  | _ bound ih =>
    intro v hv
    have hacc := hS.chains v hv
    induction hacc with
    | intro v _ ihchain =>
      intro q met hbound
      -- a container met for the first time
      have hcontents : ∀ {r o ps}, h.get? r = some o → r ∉ met → PiecesIn S ps →
          ∃ n t met', Renders C h n (met ++ [r]) ps t met' := by
        intro r o ps hr hnew hps
        have hlt := unmet_lt hr hnew
        exact exists_renders_of_forall (ih (h.unmet (met ++ [r])) (by omega)) hps le_rfl
      rcases hS.kind v hv with hscalar | ⟨r, o, rfl, hr, hnode⟩
      · obtain ⟨t, ht⟩ := Option.isSome_iff_exists.1 (hscalar q)
        exact ⟨1, t ++ [], met, .scalar ht .nil⟩
      · cases o with
        | tainted w =>
          have hinside : Inside h w (.obj r) := ⟨r, rfl, .inl hr⟩
          obtain ⟨n, t, met', ht⟩ := ihchain w hinside (hS.inside _ hv w hinside) q met hbound
          exact ⟨n + 1, t ++ [], met', .tainted hr ht .nil⟩
        | scalarCell w x =>
          have hinside : Inside h w (.obj r) := ⟨r, rfl, .inr ⟨x, hr⟩⟩
          obtain ⟨n, t, met', ht⟩ := ihchain w hinside (hS.inside _ hv w hinside) q met hbound
          exact ⟨n, t, met', .cell hr ht⟩
        | array a =>
          by_cases hmet : r ∈ met
          · exact ⟨1, _, met, .again (containerMark?_eq_some.2 (.inl ⟨⟨a, hr⟩, rfl⟩)) hmet .nil⟩
          · obtain ⟨n, t, met', ht⟩ := hcontents hr hmet (piecesIn_array (hS.array r a hv hr))
            exact ⟨n + 1, t ++ [], met', .array hr hmet ht .nil⟩
        | hash t =>
          by_cases hmet : r ∈ met
          · exact ⟨1, _, met, .again (containerMark?_eq_some.2 (.inr ⟨⟨t, hr⟩, rfl⟩)) hmet .nil⟩
          · obtain ⟨⟨es, hes⟩, ht⟩ := hS.hash r t hv hr
            have hvisible := visible_printedEntries (C := C) (h := h) hes
            obtain ⟨n, out, met', hout⟩ := hcontents hr hmet (piecesIn_hash hvisible ht)
            exact ⟨n + 1, out ++ [], met', .hash hr hmet hvisible hout .nil⟩
        | _ => cases hnode

/-- What was met is of the graph. -/
theorem Renders.met_subset {S : Set Value} (hps : Renders C h n met ps out met') (hS : Printable C h S)
    (hin : PiecesIn S ps) : ∀ r ∈ met', r ∈ met ∨ .obj r ∈ S ∧ (h.containerMark? r).isSome := by
  have hsingle : ∀ {v q}, v ∈ S → PiecesIn S [.value v q] := by
    intro v q hv w q' hw
    cases List.mem_singleton.1 hw
    exact hv
  -- the containers of the contents, then those of the pieces behind
  have hboth : ∀ {met met₁ met' : List Ref} {r : Ref}, .obj r ∈ S → (h.containerMark? r).isSome →
      (∀ x ∈ met₁, x ∈ met ++ [r] ∨ .obj x ∈ S ∧ (h.containerMark? x).isSome) →
      (∀ x ∈ met', x ∈ met₁ ∨ .obj x ∈ S ∧ (h.containerMark? x).isSome) →
      ∀ x ∈ met', x ∈ met ∨ .obj x ∈ S ∧ (h.containerMark? x).isSome := by
    intro met met₁ met' r hr hmark h₁ h' x hx
    rcases h' x hx with hx | hx
    · rcases h₁ x hx with hx | hx
      · rcases List.mem_append.1 hx with hx | hx
        · exact .inl hx
        · rw [List.mem_singleton.1 hx]
          exact .inr ⟨hr, hmark⟩
      · exact .inr hx
    · exact .inr hx
  induction hps with
  | nil => exact fun r hr => .inl hr
  | text _ ih => exact ih fun v q hv => hin v q (List.mem_cons_of_mem _ hv)
  | scalar _ _ ih => exact ih fun v q hv => hin v q (List.mem_cons_of_mem _ hv)
  | @cell n met met' r v x q out ps hr _ ih =>
    refine ih fun w q' hw => ?_
    rcases List.mem_cons.1 hw with hw | hw
    · cases hw
      exact hS.inside _ (hin _ _ List.mem_cons_self) v ⟨r, rfl, .inr ⟨x, hr⟩⟩
    · exact hin w q' (List.mem_cons_of_mem _ hw)
  | @tainted n met met₁ met' r v q t out ps hr _ _ ihv ih =>
    intro x hx
    have hv := hS.inside _ (hin _ _ List.mem_cons_self) v ⟨r, rfl, .inl hr⟩
    rcases ih (fun w q' hw => hin w q' (List.mem_cons_of_mem _ hw)) x hx with hx | hx
    · exact ihv (hsingle hv) x hx
    · exact .inr hx
  | again _ _ _ ih => exact ih fun v q hv => hin v q (List.mem_cons_of_mem _ hv)
  | @array n met met₁ met' r a q t out ps hr _ _ _ iha ih =>
    have hv := hin _ _ List.mem_cons_self
    exact hboth hv (Option.isSome_iff_exists.2 ⟨_, containerMark?_eq_some.2 (.inl ⟨⟨a, hr⟩, rfl⟩)⟩)
      (iha (piecesIn_array (hS.array r a hv hr)))
      (ih fun w q' hw => hin w q' (List.mem_cons_of_mem _ hw))
  | @hash n met met₁ met' r u es q t out ps hr _ hes _ _ ihu ih =>
    have hv := hin _ _ List.mem_cons_self
    exact hboth hv (Option.isSome_iff_exists.2 ⟨_, containerMark?_eq_some.2 (.inr ⟨⟨u, hr⟩, rfl⟩)⟩)
      (ihu (piecesIn_hash hes (hS.hash r u hv hr).2))
      (ih fun w q' hw => hin w q' (List.mem_cons_of_mem _ hw))

/-- A graph that keeps to the limits is written as its rendering. -/
theorem Renders.vmStringify_eq {S : Set Value} {F : List Ref} (hps : Renders C h 33 [] [.value v false] out met)
    (hS : Printable C h S) (hv : v ∈ S) (hvalid : ∀ r, .obj r ∈ S → h.viewIsValid r = true)
    (hF : F.length ≤ 64) (hcover : ∀ r, .obj r ∈ S → (h.containerMark? r).isSome → r ∈ F)
    (hlength : out.length < 2 ^ 32) : h.vmStringify C v = some out := by
  have hin : PiecesIn S [.value v false] := by
    intro w q hw
    cases List.mem_singleton.1 hw
    exact hv
  have hmet : ∀ r ∈ met, .obj r ∈ S ∧ (h.containerMark? r).isSome := fun r hr =>
    (hps.met_subset hS hin r hr).resolve_left List.not_mem_nil
  have hwithin : Within h met := {
    length := ((List.subperm_of_subset (hps.nodup .nil) fun r hr =>
      hcover r (hmet r hr).1 (hmet r hr).2).length_le).trans hF
    valid := fun r hr => hvalid r (hmet r hr).1
    inOrder := fun r hr t ht => (hS.hash r t (hmet r hr).1 ht).1 }
  have htext : h.stringify? C v = some out := by
    have heq : h.stringifyValue C 33 {} v false = ⟨out, false, met⟩ := hps.writePieces_eq hwithin []
    rw [stringify?, heq]
    rfl
  have hcast : (h.stringify? C v).map (fun chars => chars.take (chars.length % 2 ^ 32)) = some out := by
    rw [htext, Option.map_some, Nat.mod_eq_of_lt hlength, List.take_length]
  unfold vmStringify
  split
  · next r =>
    split
    · next s hr =>
      have hstring : h.stringify? C (.obj r) = some s.chars := by
        have hscalar : h.scalarText? C (.obj r) false = some s.chars := by
          rw [scalarText?, hr]
          exact congrArg some (List.append_nil _)
        rw [stringify?, stringifyValue_scalar hscalar]
        rfl
      exact hstring.symm.trans htext
    · exact hcast
  · exact hcast

end

end Heap

end Slp
