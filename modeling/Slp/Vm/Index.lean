import Slp.Object.Texts

/-!
# The index operator

`OP_INDEX_GET`, `OP_INDEX_SET` and `OP_INDEX_ENSURE` on a closure, whose scope is indexed by the
key as it is, and on a hash, whose keys are first turned into strings (`canonical_hash_key`), and
the removal of a key from a hash.  A step works on the table and on the heap, since a name bound to
a scalar cell is assigned in the cell.

`Lawful` is what the index operator should keep: the count, that every entry is found, that equal
keys hash equally, that a value written is read back, and that nothing else changes.  On a hash a
key is its string.  On a hash it
always holds.  On a closure `$null` and tainted objects without a key text break it; without them
it holds (`lawful_of_reach`).
-/

namespace Slp

/-- What the index operator is applied to: the scope of a closure, or a hash without policies. -/
inductive Indexed where
  | closure | hash
  deriving DecidableEq, Repr

/-- The index operations; `ensure` comes with the collection it would create. -/
inductive IndexOp where
  | get
  | set (value : Value)
  | ensure (nested : Value)
  | remove
  deriving DecidableEq, Repr

namespace HashObj

variable (fmt : Printf) (describe : Heap → HashObj → Value → Bytes) (c : Indexed) (h : Heap)

/-- The text `canonical_hash_key` gives a key; `describe` is `slp_vm_stringify`, which may come to
the table itself. -/
def canonicalText (t : HashObj) (key : Value) : Bytes :=
  match h.dereferenceValue key with
  | .bool b => if b then ascii "1" else []
  | key => describe h t key

/-- The key the table is asked for: on a hash a string with the canonical text. -/
inductive RawKey (t : HashObj) (key : Value) : Value → Prop where
  | closure (hc : c = .closure) : RawKey t key key
  | hash (hc : c = .hash) (r : Ref) (s : StringObj) (hr : h.get? r = some (.string s))
      (hs : s.chars = canonicalText describe h t key) : RawKey t key (.obj r)

/-- `assign_binding`. -/
def assignBinding? (t : HashObj) (name value : Value) : Option (Heap × HashObj) :=
  let existing := getRaw fmt h t name
  if h.isCell value then (set? fmt h existing.1 name value).map fun t => (h, t)
  else match existing.2 with
    | .obj r =>
      if h.isCell (.obj r) then some (h.watchedCellAssign r value, existing.1)
      else (set? fmt h existing.1 name value).map fun t => (h, t)
    | _ => (set? fmt h existing.1 name value).map fun t => (h, t)

/-- The write of `OP_INDEX_SET`. -/
def indexSet? (t : HashObj) (key value : Value) : Option (Heap × HashObj) :=
  match c with
  | .closure => assignBinding? fmt h t key value
  | .hash =>
    if value = .null ∧ t.orderMode = 0 then some (h, (delete fmt h t key).1)
    else (set? fmt h t key value).map fun t => (h, t)

/-- The write of `OP_INDEX_ENSURE`. -/
def indexBind? (t : HashObj) (key value : Value) : Option (Heap × HashObj) :=
  match c with
  | .closure => assignBinding? fmt h t key value
  | .hash => (set? fmt h t key value).map fun t => (h, t)

/-- An index operation: the heap and the table after it, and the value it pushes. -/
def indexStep? (t : HashObj) (key : Value) : IndexOp → Option (Heap × HashObj × Value)
  | .get => some (h, get fmt h t key)
  | .set value => (indexSet? fmt c h t key value).map fun s => (s.1, s.2, value)
  | .ensure nested =>
    let found := get fmt h t key
    if found.2 = .null then
      (indexBind? fmt c h found.1 key nested).map fun s => (s.1, s.2, nested)
    else some (h, found)
  | .remove => some (h, (delete fmt h t key).1, .bool (delete fmt h t key).2)

/-- What tells the keys of a table apart: the text of a key, or the address of an object without a
text.  A scalar cell has none, and neither has a tainted object without a text. -/
def keyId (key : Value) : Option (Bytes ⊕ Ref) :=
  if h.isCell key then none
  else match keyRepr fmt h key with
    | some text => some (.inl text)
    | none => match key with
      | .obj r => match h.get? r with
        | some (.tainted _) => none
        | _ => some (.inr r)
      | _ => none

/-- The tables reached by index operations that `ok` admits.  Between two operations the heap may
change in any way that leaves the keys in the table what they are. -/
inductive IndexReach (ok : Heap → HashObj → Value → IndexOp → Prop) : Heap → HashObj → Prop where
  | start (h : Heap) (t : HashObj) (hentries : t.entries = []) (hcount : t.count = 0) :
      IndexReach ok h t
  | heap {h : Heap} {t : HashObj} (h' : Heap) (hreach : IndexReach ok h t)
      (hsteady : ∀ e ∈ t.liveEntries, keyId fmt h' e.key = keyId fmt h e.key) :
      IndexReach ok h' t
  | step {h h' : Heap} {t t' : HashObj} {res : Value} (key raw : Value) (op : IndexOp)
      (hreach : IndexReach ok h t) (hok : ok h t key op) (hraw : RawKey describe c h t key raw)
      (hstep : indexStep? fmt c h t raw op = some (h', t', res)) : IndexReach ok h' t'

/-- The values of a script are not scalar cells. -/
def Script (h : Heap) (_ : HashObj) (key : Value) (op : IndexOp) : Prop :=
  h.isCell key = false ∧
    match op with
    | .set value => h.isCell value = false
    | .ensure nested => h.isCell nested = false ∧ nested ≠ .null
    | _ => True

/-- On a closure: the key is not a tainted object without a text, and `$null` is not given a new
binding. -/
def Sound (h : Heap) (t : HashObj) (key : Value) (op : IndexOp) : Prop :=
  Script h t key op ∧
    (c = .closure → (keyId fmt h key).isSome ∧
      (key = .null → op = .get ∨ op = .remove ∨ contains fmt h t key = true))

/-- The keys of the table, and those the next operation may use. -/
inductive Usable (ok : Heap → HashObj → Value → IndexOp → Prop) (t : HashObj) : Value → Prop where
  | entry (e : HashEntry) (he : e ∈ t.liveEntries) : Usable ok t e.key
  | key (key raw : Value) (op : IndexOp) (hok : ok h t key op)
      (hraw : RawKey describe c h t key raw) : Usable ok t raw

/-- What the index operator should keep. -/
structure Lawful (ok : Heap → HashObj → Value → IndexOp → Prop) (t : HashObj) : Prop where
  count : t.count = t.liveEntries.length
  found : ∀ (p : ℕ) (e : HashEntry), t.entries[p]? = some e → e.mark = .live →
    lookup fmt h t e.key = some p
  hashes : ∀ k k', Usable describe c h ok t k → Usable describe c h ok t k' →
    keyEquals fmt h k k' = true → hashValue fmt h k = hashValue fmt h k'
  written : ∀ key raw value, ok h t key (.set value) → RawKey describe c h t key raw →
    value ≠ .null → ∃ h' t', indexStep? fmt c h t raw (.set value) = some (h', t', value) ∧
      (get fmt h' t' raw).2 = value
  others : ∀ key raw op h' t' res, ok h t key op → RawKey describe c h t key raw →
    indexStep? fmt c h t raw op = some (h', t', res) →
    ∀ k, Usable describe c h ok t k → op = .get ∨ keyEquals fmt h raw k = false →
      (getRaw fmt h' t' k).2 = (getRaw fmt h t k).2

end HashObj

namespace HashObj

/-! ### What tells keys apart -/

section Keys

variable {fmt : Printf} {describe : Heap → HashObj → Value → Bytes} {c : Indexed} {h : Heap} {r : Ref}
  {key raw v v' value : Value} {w : Option Ref} {x : Bytes ⊕ Ref}

theorem keyRepr_setCell (hr : h.get? r = some (.scalarCell v w)) (hkey : h.isCell key = false) :
    keyRepr fmt (h.set r (.scalarCell v' w)) key = keyRepr fmt h key := by
  have hkey' : (h.set r (.scalarCell v' w)).isCell key = false := by rwa [Heap.isCell_setCell hr]
  unfold keyRepr
  rw [Heap.dereferenceValue_of_not_cell hkey, Heap.dereferenceValue_of_not_cell hkey',
    Heap.unwrapTaint_setCell hr]
  split
  · rfl
  · rfl
  · rfl
  · rename_i q _
    rw [Heap.get?_set hr]
    by_cases hq : r = q
    · subst hq
      rw [if_pos rfl, hr]
    · rw [if_neg hq]

/-- What tells a key apart does not depend on the contents of cells. -/
theorem keyId_setCell (hr : h.get? r = some (.scalarCell v w)) (key : Value) :
    keyId fmt (h.set r (.scalarCell v' w)) key = keyId fmt h key := by
  unfold keyId
  rw [Heap.isCell_setCell hr]
  by_cases hcell : h.isCell key = true
  · rw [if_pos hcell, if_pos hcell]
  · rw [if_neg hcell, if_neg hcell, keyRepr_setCell hr (Bool.not_eq_true _ ▸ hcell)]
    cases keyRepr fmt h key with
    | some text => rfl
    | none =>
      cases key with
      | obj q =>
        dsimp only
        rw [Heap.get?_set hr]
        by_cases hq : r = q
        · subst hq
          rw [if_pos rfl, hr]
        · rw [if_neg hq]
      | null => rfl
      | bool b => rfl
      | num n => rfl

/-- A key is told apart by its text, or is an object that has none. -/
theorem keyId_cases (hx : keyId fmt h key = some x) :
    h.isCell key = false ∧ ((∃ text, keyRepr fmt h key = some text ∧ x = .inl text) ∨
      ∃ r, key = .obj r ∧ keyRepr fmt h key = none ∧ (∀ v, h.get? r ≠ some (.tainted v)) ∧
        x = .inr r) := by
  unfold keyId at hx
  split at hx
  · cases hx
  · rename_i hcell
    refine ⟨Bool.not_eq_true _ ▸ hcell, ?_⟩
    split at hx
    · rename_i text htext
      exact .inl ⟨text, htext, (Option.some.inj hx).symm⟩
    · rename_i hnone
      split at hx
      · rename_i r
        split at hx
        · cases hx
        · rename_i hplain
          exact .inr ⟨r, rfl, hnone, fun v hv => hplain v hv, (Option.some.inj hx).symm⟩
      · cases hx

/-- A key that is told apart by its text is no object without one. -/
theorem unwrapTaint_ne_of_text {r : Ref} {text : Bytes} (hcell : h.isCell key = false)
    (htext : keyRepr fmt h key = some text) (hr : h.isCell (.obj r) = false)
    (hplain : ∀ v, h.get? r ≠ some (.tainted v)) (hnone : keyRepr fmt h (.obj r) = none) :
    h.unwrapTaint key ≠ .obj r := by
  intro heq
  unfold keyRepr at htext hnone
  rw [Heap.dereferenceValue_of_not_cell hcell, heq] at htext
  rw [Heap.dereferenceValue_of_not_cell hr, Heap.unwrapTaint_of_not_tainted hplain] at hnone
  rw [hnone] at htext
  cases htext

/-- Texts and addresses tell keys apart as the table does. -/
def idLabels (fmt : Printf) (h : Heap) : Labels fmt h (Bytes ⊕ Ref) where
  label := keyId fmt h
  code
    | .inl text => hashString text
    | .inr r => UInt32.ofNat r
  hash hkey := by
    unfold hashValue
    obtain ⟨-, ⟨text, htext, rfl⟩ | ⟨r, rfl, hnone, -, rfl⟩⟩ := keyId_cases hkey
    · rw [htext]
    · rw [hnone]
  equal hk hk' := by
    unfold keyEquals
    obtain ⟨hc, ⟨s, hs, rfl⟩ | ⟨r, rfl, hnone, hr, rfl⟩⟩ := keyId_cases hk
    · obtain ⟨hc', ⟨s', hs', rfl⟩ | ⟨r', rfl, hnone', hr', rfl⟩⟩ := keyId_cases hk'
      · rw [hs, hs', Sum.inl.injEq]
        exact beq_iff_eq
      · rw [hs, hnone', Heap.unwrapTaint_of_not_tainted hr']
        simpa using unwrapTaint_ne_of_text hc hs hc' hr' hnone'
    · obtain ⟨hc', ⟨s', hs', rfl⟩ | ⟨r', rfl, hnone', hr', rfl⟩⟩ := keyId_cases hk'
      · rw [hs', hnone, Heap.unwrapTaint_of_not_tainted hr]
        simpa using (unwrapTaint_ne_of_text hc' hs' hc hr hnone).symm
      · rw [hnone, hnone', Heap.unwrapTaint_of_not_tainted hr, Heap.unwrapTaint_of_not_tainted hr']
        simp

/-- A string is told apart by its text. -/
theorem keyId_string {s : StringObj} (hr : h.get? r = some (.string s)) :
    keyId fmt h (.obj r) = some (.inl s.chars) := by
  have hcell : h.isCell (.obj r) = false := by rw [Heap.isCell_obj, hr]
  rw [keyId, hcell, keyRepr_string hr]
  rfl

end Keys

/-! ### Steps -/

section Steps

variable {fmt : Printf} {describe : Heap → HashObj → Value → Bytes} {c : Indexed} {h : Heap} {t : HashObj}
  {d : Bytes ⊕ Ref → Option Value} {key raw value : Value} {x : Bytes ⊕ Ref} {op : IndexOp}

/-- What a step under the label `x` does: the table is a map after it, with other labels alone, and
what it holds under `x` reads as `value`. -/
structure Binds (fmt : Printf) (h : Heap) (d d' : Bytes ⊕ Ref → Option Value) (x : Bytes ⊕ Ref)
    (h' : Heap) (t' : HashObj) : Prop where
  refines : Refines (idLabels fmt h') t' d'
  same : ∀ k, keyId fmt h' k = keyId fmt h k
  others : ∀ y, y ≠ x → d' y = d y

theorem Binds.refl (hr : Refines (idLabels fmt h) t d) : Binds fmt h d d x h t :=
  ⟨hr, fun _ => rfl, fun _ _ => rfl⟩

/-- A value is stored in the table. -/
theorem exists_set?_binds (hr : Refines (idLabels fmt h) t d) (hkey : keyId fmt h key = some x)
    (hnull : key ≠ .null ∨ (d x).isSome) (value : Value) :
    ∃ t' d', set? fmt h t key value = some t' ∧ Binds fmt h d d' x h t' ∧ d' x = some value := by
  obtain ⟨t', hset, hr'⟩ := hr.exists_set? hnull hkey value
  exact ⟨t', _, hset, ⟨hr', fun _ => rfl, fun _ hy => Function.update_of_ne hy _ _⟩,
    Function.update_self ..⟩

/-- A value is assigned to a name, in the table or in the cell the name is bound to. -/
theorem exists_assignBinding? (hr : Refines (idLabels fmt h) t d)
    (hkey : keyId fmt h key = some x) (hnull : key ≠ .null ∨ (d x).isSome)
    (hvalue : h.isCell value = false) :
    ∃ h' t' d', assignBinding? fmt h t key value = some (h', t') ∧ Binds fmt h d d' x h' t' ∧
      h'.dereferenceValue ((d' x).getD .null) = value := by
  obtain ⟨hfound, hr'⟩ := hr.getRaw (L := idLabels fmt h) hkey
  obtain ⟨t', d', hset, hbinds, hx⟩ := exists_set?_binds hr' hkey hnull value
  have hstored : ∃ h'' t'' d'', (set? fmt h (getRaw fmt h t key).1 key value).map
      (fun t => (h, t)) = some (h'', t'') ∧ Binds fmt h d d'' x h'' t'' ∧
        h''.dereferenceValue ((d'' x).getD .null) = value := by
    refine ⟨h, t', d', by rw [hset]; rfl, hbinds, ?_⟩
    rw [hx]
    exact Heap.dereferenceValue_of_not_cell hvalue
  rw [assignBinding?]
  simp only [hvalue, Bool.false_eq_true, if_false]
  split
  · rename_i r hobj
    split_ifs with hcell
    · -- the name is bound to a cell, and the cell is assigned
      obtain ⟨v, w, hcellr⟩ := Heap.exists_of_isCell hcell
      have hassign : h.watchedCellAssign r value = h.set r (.scalarCell value w) := by
        rw [Heap.watchedCellAssign, hcellr]
        dsimp only
        rw [Heap.dereferenceValue_of_not_cell hvalue]
      have hsame : ∀ k, keyId fmt (h.set r (.scalarCell value w)) k = keyId fmt h k :=
        keyId_setCell hcellr
      refine ⟨_, _, d, rfl, ⟨?_, ?_, fun _ _ => rfl⟩, ?_⟩
      · rw [hassign]
        exact hr'.steady rfl fun e _ => hsame e.key
      · rwa [hassign]
      · rw [← hfound, hobj, hassign]
        exact Heap.dereferenceValue_setCell hcellr hvalue
    · exact hstored
  · exact hstored

/-- A key is taken out of the table. -/
theorem delete_binds (hr : Refines (idLabels fmt h) t d) (hkey : keyId fmt h key = some x) :
    Binds fmt h d (Function.update d x none) x h (delete fmt h t key).1 :=
  ⟨(hr.delete (L := idLabels fmt h) hkey).2, fun _ => rfl, fun _ hy => Function.update_of_ne hy _ _⟩

theorem exists_indexSet? (hr : Refines (idLabels fmt h) t d) (hkey : keyId fmt h key = some x)
    (hnull : key ≠ .null ∨ (d x).isSome) (hvalue : h.isCell value = false) :
    ∃ h' t' d', indexSet? fmt c h t key value = some (h', t') ∧ Binds fmt h d d' x h' t' ∧
      (value ≠ .null → h'.dereferenceValue ((d' x).getD .null) = value) := by
  cases c with
  | closure =>
    obtain ⟨h', t', d', hset, hbinds, hread⟩ := exists_assignBinding? hr hkey hnull hvalue
    exact ⟨h', t', d', hset, hbinds, fun _ => hread⟩
  | hash =>
    rw [indexSet?]
    split_ifs with hdelete
    · exact ⟨h, _, _, rfl, delete_binds hr hkey, fun hno => absurd hdelete.1 hno⟩
    · obtain ⟨t', d', hset, hbinds, hx⟩ := exists_set?_binds hr hkey hnull value
      refine ⟨h, t', d', by rw [hset]; rfl, hbinds, fun _ => ?_⟩
      rw [hx]
      exact Heap.dereferenceValue_of_not_cell hvalue

theorem exists_indexBind? (hr : Refines (idLabels fmt h) t d) (hkey : keyId fmt h key = some x)
    (hnull : key ≠ .null ∨ (d x).isSome) (hvalue : h.isCell value = false) :
    ∃ h' t' d', indexBind? fmt c h t key value = some (h', t') ∧ Binds fmt h d d' x h' t' := by
  cases c with
  | closure =>
    obtain ⟨h', t', d', hset, hbinds, -⟩ := exists_assignBinding? hr hkey hnull hvalue
    exact ⟨h', t', d', hset, hbinds⟩
  | hash =>
    obtain ⟨t', d', hset, hbinds, -⟩ := exists_set?_binds hr hkey hnull value
    exact ⟨h, t', d', by rw [indexBind?, hset]; rfl, hbinds⟩

/-- One index operation, under a key that is told apart. -/
theorem exists_indexStep? (hr : Refines (idLabels fmt h) t d) (hkey : keyId fmt h key = some x)
    (hnull : key = .null → op = .get ∨ op = .remove ∨ (d x).isSome) (hscript : Script h t raw op) :
    ∃ h' t' res d', indexStep? fmt c h t key op = some (h', t', res) ∧ Binds fmt h d d' x h' t' ∧
      (op = .get → d' = d) ∧
      ∀ v, op = .set v → v ≠ .null → res = v ∧ h'.dereferenceValue ((d' x).getD .null) = v := by
  cases op with
  | get =>
    have hr' := (hr.getRaw (L := idLabels fmt h) hkey).2
    refine ⟨h, _, _, d, rfl, Binds.refl hr', fun _ => rfl, ?_⟩
    intro v hv
    cases hv
  | set value =>
    have hnull' : key ≠ .null ∨ (d x).isSome := by
      by_cases hkey' : key = .null
      · rcases hnull hkey' with hop | hop | hsome
        · cases hop
        · cases hop
        · exact .inr hsome
      · exact .inl hkey'
    obtain ⟨h', t', d', hset, hbinds, hread⟩ :=
      exists_indexSet? (c := c) hr hkey hnull' hscript.2
    refine ⟨h', t', value, d', by rw [indexStep?, hset]; rfl, hbinds, ?_, ?_⟩
    · intro hop
      cases hop
    · rintro v hv hne
      obtain rfl := IndexOp.set.inj hv
      exact ⟨rfl, hread hne⟩
  | ensure nested =>
    have hnull' : key ≠ .null ∨ (d x).isSome := by
      by_cases hkey' : key = .null
      · rcases hnull hkey' with hop | hop | hsome
        · cases hop
        · cases hop
        · exact .inr hsome
      · exact .inl hkey'
    have hr' := (hr.getRaw (L := idLabels fmt h) hkey).2
    rw [indexStep?]
    split_ifs with hmissing
    · obtain ⟨h', t', d', hset, hbinds⟩ :=
        exists_indexBind? (c := c) hr' hkey hnull' hscript.2.1
      refine ⟨h', t', nested, d', by rw [get, hset]; rfl, hbinds, ?_, ?_⟩
      · intro hop
        cases hop
      · intro v hv
        cases hv
    · refine ⟨h, _, _, d, rfl, Binds.refl hr', ?_, ?_⟩
      · intro hop
        cases hop
      · intro v hv
        cases hv
  | remove =>
    refine ⟨h, _, _, _, rfl, delete_binds hr hkey, ?_, ?_⟩
    · intro hop
      cases hop
    · intro v hv
      cases hv

/-- The key of an admitted operation is told apart. -/
theorem Sound.exists_keyId (hok : Sound fmt c h t key op) (hraw : RawKey describe c h t key raw) :
    ∃ x, keyId fmt h raw = some x ∧
      (raw = .null → op = .get ∨ op = .remove ∨ contains fmt h t raw = true) := by
  cases hraw with
  | closure hc =>
    obtain ⟨hsome, hnull⟩ := hok.2 hc
    obtain ⟨x, hx⟩ := Option.isSome_iff_exists.1 hsome
    exact ⟨x, hx, hnull⟩
  | hash hc r s hr hs =>
    refine ⟨.inl s.chars, keyId_string hr, ?_⟩
    intro hno
    cases hno

/-- An admitted operation on a table that is a map. -/
theorem Sound.exists_step (hr : Refines (idLabels fmt h) t d) (hok : Sound fmt c h t key op)
    (hraw : RawKey describe c h t key raw) :
    ∃ x h' t' res d', keyId fmt h raw = some x ∧
      indexStep? fmt c h t raw op = some (h', t', res) ∧ Binds fmt h d d' x h' t' ∧
      (op = .get → d' = d) ∧
      ∀ v, op = .set v → v ≠ .null → res = v ∧ h'.dereferenceValue ((d' x).getD .null) = v := by
  obtain ⟨x, hx, hnull⟩ := hok.exists_keyId hraw
  rw [hr.contains (L := idLabels fmt h) hx] at hnull
  obtain ⟨h', t', res, d', hrest⟩ := exists_indexStep? (c := c) hr hx hnull hok.1
  exact ⟨x, h', t', res, d', hx, hrest⟩

theorem Usable.exists_keyId {k : Value} (hr : Refines (idLabels fmt h) t d)
    (hk : Usable describe c h (Sound fmt c) t k) : ∃ x, keyId fmt h k = some x := by
  cases hk with
  | entry e he => exact Option.isSome_iff_exists.1 (hr.label e he)
  | key key raw op hok hraw =>
    obtain ⟨x, hx, -⟩ := hok.exists_keyId hraw
    exact ⟨x, hx⟩

/-- A table that is a map is lawful. -/
theorem Refines.lawful (hr : Refines (idLabels fmt h) t d) :
    Lawful fmt describe c h (Sound fmt c) t where
  count := hr.sized.count
  found p e hp hlive := hr.lookup_self hp hlive
  hashes k k' hk hk' heq := by
    obtain ⟨x, hx⟩ := hk.exists_keyId hr
    obtain ⟨x', hx'⟩ := hk'.exists_keyId hr
    have hxx' := ((idLabels fmt h).equal hx hx').1 heq
    rw [(idLabels fmt h).hash hx, (idLabels fmt h).hash hx', hxx']
  written key raw value hok hraw hne := by
    obtain ⟨x, h', t', res, d', hx, hstep, hbinds, -, hread⟩ := hok.exists_step hr hraw
    obtain ⟨rfl, hback⟩ := hread value rfl hne
    refine ⟨h', t', hstep, ?_⟩
    have hx' : keyId fmt h' raw = some x := (hbinds.same raw).trans hx
    rw [get, (hbinds.refines.getRaw (L := idLabels fmt h') hx').1]
    exact hback
  others key raw op h' t' res hok hraw hstep k hk hother := by
    obtain ⟨x, h₁, t₁, res₁, d', hx, hstep₁, hbinds, hget, -⟩ := hok.exists_step hr hraw
    obtain ⟨y, hy⟩ := hk.exists_keyId hr
    obtain ⟨rfl, rfl, rfl⟩ : h₁ = h' ∧ t₁ = t' ∧ res₁ = res := by
      simpa using hstep₁.symm.trans hstep
    have hy' : keyId fmt h₁ k = some y := (hbinds.same k).trans hy
    rw [(hbinds.refines.getRaw (L := idLabels fmt h₁) hy').1,
      (hr.getRaw (L := idLabels fmt h) hy).1]
    rcases hother with hop | hne
    · rw [hget hop]
    · have hyx : y ≠ x := by
        rintro rfl
        rw [((idLabels fmt h).equal hx hy).2 rfl] at hne
        cases hne
      rw [hbinds.others y hyx]

/-- Admitted operations keep the table a map. -/
theorem IndexReach.refines (hreach : IndexReach fmt describe c (Sound fmt c) h t) :
    ∃ d, Refines (idLabels fmt h) t d := by
  induction hreach with
  | start h t hentries hcount => exact ⟨_, Refines.empty hentries hcount⟩
  | heap h' _ hsteady ih =>
    obtain ⟨d, hr⟩ := ih
    exact ⟨d, hr.steady rfl hsteady⟩
  | step key raw op _ hok hraw hstep ih =>
    obtain ⟨d, hr⟩ := ih
    obtain ⟨x, h₁, t₁, res₁, d', -, hstep₁, hbinds, -⟩ := hok.exists_step hr hraw
    obtain ⟨rfl, rfl, -⟩ : h₁ = _ ∧ t₁ = _ ∧ res₁ = _ := by
      simpa using hstep₁.symm.trans hstep
    exact ⟨d', hbinds.refines⟩

end Steps

/-- A tainted object without a text is the same key as the object, but hashes by its own
address. -/
theorem hashValue_tainted {fmt : Printf} {h : Heap} {r w : Ref}
    (hw : h.get? w = some (.tainted (.obj r))) (hr : ∀ v, h.get? r ≠ some (.tainted v))
    (hcell : h.isCell (.obj r) = false) (hnone : keyRepr fmt h (.obj r) = none) :
    keyEquals fmt h (.obj w) (.obj r) = true ∧
      hashValue fmt h (.obj w) = UInt32.ofNat w ∧ hashValue fmt h (.obj r) = UInt32.ofNat r := by
  have hwcell : h.isCell (.obj w) = false := by rw [Heap.isCell_obj, hw]
  have hunwrap := Heap.unwrapTaint_tainted hw hr
  have hwnone : keyRepr fmt h (.obj w) = none := by
    unfold keyRepr at hnone ⊢
    rw [Heap.dereferenceValue_of_not_cell hcell, Heap.unwrapTaint_of_not_tainted hr] at hnone
    rw [Heap.dereferenceValue_of_not_cell hwcell, hunwrap]
    exact hnone
  refine ⟨?_, ?_, ?_⟩
  · unfold keyEquals
    rw [hwnone, hnone, hunwrap, Heap.unwrapTaint_of_not_tainted hr]
    simp
  · unfold hashValue
    rw [hwnone]
  · unfold hashValue
    rw [hnone]

end HashObj

end Slp
