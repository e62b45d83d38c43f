import Slp.Table.Tombstone
import Slp.Object.Containers

/-!
# The hash table

Lookups, deletions and the order of a hash table, and `slp_obj_hash_set` with its loops watched:
`HashObj.set?` is `HashObj.set`, but for the answer `none` when a loop of the source would not end.

A slot with a null key has no entry; the value `true` under it marks a deleted one.  In the terms
of `Slp.Table` these are the free and the dead cells (`HashEntry.mark`), a lookup is a
`Table.search` (`lookup_eq`) and the scan of an insertion a `Table.vacancy` (`scan_eq`).
`HashObj.Sized` is what holds of every table, whatever happens to the contents of its keys;
`set?_spec` says what an insertion does to such a table.
-/

namespace Slp

/-- The state of a slot. -/
def HashEntry.mark (e : HashEntry) : Table.Mark :=
  if e.key = .null then if e.value = .bool true then .dead else .free else .live

theorem HashEntry.mark_eq_live {e : HashEntry} : e.mark = .live ↔ e.key ≠ .null := by
  unfold HashEntry.mark
  split_ifs <;> simp_all

theorem HashEntry.mark_of_key {e e' : HashEntry} (hkey : e'.key = e.key) (hlive : e.mark = .live) :
    e'.mark = .live := by
  rw [HashEntry.mark_eq_live] at hlive ⊢
  rwa [hkey]

namespace HashObj

variable (fmt : Printf) (h : Heap)

/-- The loop of `slp_obj_hash_get_raw`, `slp_obj_hash_contains` and `slp_obj_hash_delete`: the slot
that holds the key. -/
def lookupLoop (entries : List HashEntry) (key : Value) : (fuel idx : ℕ) → Option ℕ
  | 0, _ => none
  | fuel + 1, idx =>
    let e := entries.getD idx {}
    let next := (idx + 1) &&& (entries.length - 1)
    if e.key = .null then
      if e.value = .bool true then lookupLoop entries key fuel next else none
    else if keyEquals fmt h e.key key then some idx
    else lookupLoop entries key fuel next

/-- The slot that holds a key. -/
def lookup (t : HashObj) (key : Value) : Option ℕ :=
  lookupLoop fmt h t.entries key t.entries.length
    ((hashValue fmt h key).toNat &&& (t.entries.length - 1))

/-- `slp_obj_hash_get_raw`: a table in access order moves the entry to the end of the order. -/
def getRaw (t : HashObj) (key : Value) : HashObj × Value :=
  match lookup fmt h t key with
  | none => (t, .null)
  | some idx =>
    let e := t.entries.getD idx {}
    if t.orderMode = 2 ∧ e.value ≠ .null then
      ({ t with
        entries := t.entries.set idx { e with sequence := t.nextSequence + 1 }
        nextSequence := t.nextSequence + 1 }, e.value)
    else (t, e.value)

/-- `slp_obj_hash_get`. -/
def get (t : HashObj) (key : Value) : HashObj × Value :=
  ((getRaw fmt h t key).1, h.dereferenceValue (getRaw fmt h t key).2)

/-- `slp_obj_hash_contains`. -/
def contains (t : HashObj) (key : Value) : Bool := (lookup fmt h t key).isSome

/-- `slp_obj_hash_delete`. -/
def delete (t : HashObj) (key : Value) : HashObj × Bool :=
  match lookup fmt h t key with
  | none => (t, false)
  | some idx =>
    ({ t with
      entries := t.entries.set idx { key := .null, value := .bool true, sequence := 0 }
      count := t.count - 1 }, true)

section Lookups

variable {fmt h} {t : HashObj} {key : Value} {p : ℕ} {e : HashEntry}

theorem getRaw_none (hno : lookup fmt h t key = none) : getRaw fmt h t key = (t, .null) := by
  rw [getRaw, hno]

/-- What a table in access order is after its entry `e` at `p` was read. -/
def touched (t : HashObj) (p : ℕ) (e : HashEntry) : HashObj :=
  if t.orderMode = 2 ∧ e.value ≠ .null then
    { t with
      entries := t.entries.set p { e with sequence := t.nextSequence + 1 }
      nextSequence := t.nextSequence + 1 }
  else t

theorem getRaw_some (hp : lookup fmt h t key = some p) (he : t.entries[p]? = some e) :
    getRaw fmt h t key = (touched t p e, e.value) := by
  rw [getRaw, hp]
  dsimp only
  rw [List.getD_eq_getElem?_getD, he, Option.getD_some, touched]
  split_ifs <;> rfl

theorem delete_none (hno : lookup fmt h t key = none) : delete fmt h t key = (t, false) := by
  rw [delete, hno]

theorem delete_some (hp : lookup fmt h t key = some p) :
    delete fmt h t key = ({ t with
      entries := t.entries.set p { key := .null, value := .bool true, sequence := 0 }
      count := t.count - 1 }, true) := by
  rw [delete, hp]

end Lookups

/-! ### Insertions with their loops watched -/

/-- The probe of `hash_grow`; `none` when it comes round the table without a free slot, that is,
when the loop does not end. -/
def growProbe? (entries : List HashEntry) : (fuel idx : ℕ) → Option ℕ
  | 0, _ => none
  | fuel + 1, idx =>
    if (entries.getD idx {}).key = .null then some idx
    else growProbe? entries fuel ((idx + 1) &&& (entries.length - 1))

/-- The copy of one slot into the new table of `hash_grow`. -/
def put? (capacity : ℕ) (new : List HashEntry) (e : HashEntry) : Option (List HashEntry) :=
  if e.key = .null then some new
  else (growProbe? new capacity ((hashValue fmt h e.key).toNat &&& (capacity - 1))).map
    fun idx => new.set idx e

/-- The capacity after `hash_grow`. -/
def grownCapacity (t : HashObj) : ℕ := if t.entries.length = 0 then 16 else t.entries.length * 2

/-- `hash_grow`. -/
def grow? (t : HashObj) : Option HashObj :=
  (t.entries.foldlM (put? fmt h t.grownCapacity) (List.replicate t.grownCapacity {})).map
    fun entries => { t with entries := entries }

/-- The growth at the start of `slp_obj_hash_set`. -/
def makeRoom? (t : HashObj) : Option HashObj :=
  (if t.count + 1 > t.entries.length * 3 / 4 then grow? fmt h t else some t).bind fun t =>
    if t.entries.length = 0 then grow? fmt h t else some t

/-- The body of `slp_obj_hash_set`, over at most `fuel` defensive growths. -/
def setLoop? (key value : Value) : (fuel : ℕ) → HashObj → Option HashObj
  | 0, _ => none
  | fuel + 1, t =>
    (makeRoom? fmt h t).bind fun t =>
      match scan fmt h t.entries key t.entries.length
          ((hashValue fmt h key).toNat &&& (t.entries.length - 1)) none with
      | .present idx =>
        some { t with entries := t.entries.modify idx fun e => { e with value } }
      | .free idx =>
        some { t with
          entries := t.entries.set idx ⟨key, value, t.nextSequence + 1⟩
          nextSequence := t.nextSequence + 1
          count := t.count + 1 }
      | .full => (grow? fmt h t).bind (setLoop? key value fuel)

/-- `slp_obj_hash_set`. -/
def set? (t : HashObj) (key value : Value) : Option HashObj := setLoop? fmt h key value 2 t

/-! ### The order of a table -/

/-- `hash_entry_precedes`. -/
def entryPrecedes (t : HashObj) (left right : ℕ) : Bool :=
  let l := t.entries.getD left {}
  let r := t.entries.getD right {}
  if t.orderMode ≠ 0 then l.sequence < r.sequence
  else
    let leftBucket := (hashValue fmt h l.key).toNat &&& (t.entries.length - 1)
    let rightBucket := (hashValue fmt h r.key).toNat &&& (t.entries.length - 1)
    if leftBucket ≠ rightBucket then leftBucket < rightBucket else l.sequence > r.sequence

/-- The number of live slots before a slot. -/
def rank (t : HashObj) (candidate : ℕ) : ℕ :=
  (List.range t.entries.length).countP fun other =>
    !((t.entries.getD other {}).key = .null || other = candidate) &&
      entryPrecedes fmt h t other candidate

/-- `slp_obj_hash_ordered_index`; `none` is `-1`. -/
def orderedIndex (t : HashObj) (ordinal : ℤ) : Option ℕ :=
  if ordinal < 0 ∨ ordinal ≥ t.count then none
  else (List.range t.entries.length).find? fun candidate =>
    !((t.entries.getD candidate {}).key = .null) && rank fmt h t candidate = ordinal

/-! ### Walks of the table -/

section Walks

variable {fmt h} {entries : List HashEntry} {key : Value} {k fuel idx : ℕ}

theorem land_eq_mod (hlen : entries.length = 2 ^ k) (n : ℕ) :
    n &&& (entries.length - 1) = n % entries.length := by
  rw [hlen, Nat.and_two_pow_sub_one_eq_mod]

theorem lookupLoop_eq (hlen : entries.length = 2 ^ k) (hi : idx < entries.length) :
    lookupLoop fmt h entries key fuel idx =
      Table.search HashEntry.mark (fun e => keyEquals fmt h e.key key) entries fuel idx := by
  induction fuel generalizing idx with
  | zero => rfl
  | succ fuel ih =>
    have hnext : (idx + 1) % entries.length < entries.length := Nat.mod_lt _ (by omega)
    rw [lookupLoop, Table.search, List.getElem?_eq_getElem hi, land_eq_mod hlen, ih hnext,
      List.getD_eq_getElem?_getD, List.getElem?_eq_getElem hi]
    simp only [Option.getD_some, HashEntry.mark]
    split_ifs <;> rfl

theorem scan_eq {dead : Option ℕ} (hlen : entries.length = 2 ^ k) (hi : idx < entries.length) :
    scan fmt h entries key fuel idx dead =
      match Table.vacancy HashEntry.mark (fun e => keyEquals fmt h e.key key) entries fuel idx dead
        with
      | .present i => .present i
      | .vacant i => .free i
      | .full => .full := by
  induction fuel generalizing idx dead with
  | zero => cases dead <;> rfl
  | succ fuel ih =>
    have hnext : (idx + 1) % entries.length < entries.length := Nat.mod_lt _ (by omega)
    rw [scan, Table.vacancy, List.getElem?_eq_getElem hi, land_eq_mod hlen, ih hnext, ih hnext,
      List.getD_eq_getElem?_getD, List.getElem?_eq_getElem hi]
    simp only [Option.getD_some, HashEntry.mark]
    split_ifs <;> rfl

/-- A slot as a cell of a table without deletions. -/
def cell (e : HashEntry) : Option HashEntry := if e.key = .null then none else some e

theorem entries_map_cell (entries : List HashEntry) :
    Table.entries (entries.map cell) = Table.live HashEntry.mark entries := by
  induction entries with
  | nil => rfl
  | cons e rest ih =>
    by_cases he : e.key = .null
    · have hm : e.mark ≠ .live := fun hl => HashEntry.mark_eq_live.1 hl he
      simpa [Table.entries, Table.live, cell, he, hm] using ih
    · have hm : e.mark = .live := HashEntry.mark_eq_live.2 he
      simpa [Table.entries, Table.live, cell, he, hm] using ih

theorem growProbe?_eq (hlen : entries.length = 2 ^ k) (hi : idx < entries.length) :
    growProbe? entries fuel idx = Table.firstFree (entries.map cell) fuel idx := by
  induction fuel generalizing idx with
  | zero => rfl
  | succ fuel ih =>
    have hnext : (idx + 1) % entries.length < entries.length := Nat.mod_lt _ (by omega)
    rw [growProbe?, Table.firstFree, List.getElem?_map, List.getElem?_eq_getElem hi,
      land_eq_mod hlen, ih hnext, List.getD_eq_getElem?_getD, List.getElem?_eq_getElem hi,
      List.length_map]
    simp only [Option.getD_some, Option.map_some, cell]
    split_ifs <;> rfl

end Walks

/-! ### Growth -/

/-- The home of an entry in a table of this capacity. -/
def home (capacity : ℕ) (e : HashEntry) : ℕ := (hashValue fmt h e.key).toNat % capacity

/-- The entries of a table. -/
def liveEntries (t : HashObj) : List HashEntry := Table.live HashEntry.mark t.entries

/-- What holds of every table, whatever happens to the contents of its keys. -/
structure Sized (t : HashObj) : Prop where
  capacity : t.entries = [] ∨ ∃ k, t.entries.length = 2 ^ (k + 4)
  count : t.count = t.liveEntries.length

section Slots

variable {t t' : HashObj} {p : ℕ} {e e' : HashEntry}

theorem Sized.capacity_set (hs : Sized t) (hp : t.entries[p]? = some e)
    (hentries : t'.entries = t.entries.set p e') : ∃ k, t'.entries.length = 2 ^ (k + 4) := by
  rw [hentries, List.length_set]
  rcases hs.capacity with hnil | hk
  · rw [hnil] at hp
    cases hp
  · exact hk

/-- An entry is replaced by another one. -/
theorem Sized.replace (hs : Sized t) (hp : t.entries[p]? = some e) (hlive : e.mark = .live)
    (hlive' : e'.mark = .live) (hentries : t'.entries = t.entries.set p e')
    (hcount : t'.count = t.count) : Sized t' := by
  obtain ⟨rest, hold, hnew⟩ := Table.exists_live_set hp hlive hlive'
  refine ⟨.inr (hs.capacity_set hp hentries), ?_⟩
  rw [hcount, hs.count, liveEntries, liveEntries, hentries, hnew.length_eq, hold.length_eq]
  rfl

/-- A slot without an entry gets one. -/
theorem Sized.insert (hs : Sized t) (hp : t.entries[p]? = some e) (hdead : e.mark ≠ .live)
    (hlive : e'.mark = .live) (hentries : t'.entries = t.entries.set p e')
    (hcount : t'.count = t.count + 1) : Sized t' := by
  refine ⟨.inr (hs.capacity_set hp hentries), ?_⟩
  rw [hcount, hs.count, liveEntries, liveEntries, hentries,
    (Table.live_set_perm hp hdead hlive).length_eq]
  rfl

/-- An entry is taken out of its slot. -/
theorem Sized.remove (hs : Sized t) (hp : t.entries[p]? = some e) (hlive : e.mark = .live)
    (hdead : e'.mark ≠ .live) (hentries : t'.entries = t.entries.set p e')
    (hcount : t'.count = t.count - 1) : Sized t' := by
  refine ⟨.inr (hs.capacity_set hp hentries), ?_⟩
  rw [hcount, hs.count, liveEntries, liveEntries, hentries,
    (Table.live_set_dead hp hlive hdead).length_eq]
  rfl

end Slots

section Growth

variable {fmt h} {t : HashObj} {entries : List HashEntry} {e : HashEntry} {n k : ℕ}

theorem key_of_cell {e : HashEntry} : cell e = none ↔ e.mark ≠ .live := by
  rw [Ne, HashEntry.mark_eq_live, not_not, cell]
  split_ifs with he <;> simp [he]

/-- One entry is copied into a table with room. -/
theorem exists_put? (hlen : entries.length = n) (hn : n = 2 ^ k) (he : e.mark = .live)
    (hroom : (Table.live HashEntry.mark entries).length < n)
    (hlinked : Table.Linked HashEntry.mark entries (home fmt h n)) :
    ∃ new, put? fmt h n entries e = some new ∧ new.length = n ∧
      (Table.live HashEntry.mark new).Perm (e :: Table.live HashEntry.mark entries) ∧
      Table.Linked HashEntry.mark new (home fmt h n) := by
  subst hlen
  have hhome : home fmt h entries.length e < entries.length := Nat.mod_lt _ (by omega)
  have hland : (hashValue fmt h e.key).toNat &&& (entries.length - 1) =
      home fmt h entries.length e := land_eq_mod hn _
  obtain ⟨d, hd, hfree, hcell, hocc⟩ :=
    Table.exists_firstFree (t := entries.map cell) (i := home fmt h entries.length e)
      (by rwa [List.length_map]) (by rwa [entries_map_cell, List.length_map])
  rw [List.length_map] at hd hfree hcell
  have hprobe : growProbe? entries entries.length (home fmt h entries.length e) =
      some ((home fmt h entries.length e + d) % entries.length) := by
    rw [growProbe?_eq hn hhome]
    exact hfree
  -- the slot that the probe found, and the walk to it
  rw [List.getElem?_map, Option.map_eq_some_iff] at hcell
  obtain ⟨x, hx, hxcell⟩ := hcell
  have hclear : Table.Clear HashEntry.mark entries (home fmt h entries.length e) d := by
    intro j hj y hy
    obtain ⟨z, hz⟩ := hocc j hj
    rw [List.getElem?_map, List.length_map, hy, Option.map_some, Option.some.injEq] at hz
    have hlive : y.mark = .live := by
      by_contra hno
      rw [key_of_cell.2 hno] at hz
      cases hz
    rw [hlive]
    decide
  have hkey : e.key ≠ .null := HashEntry.mark_eq_live.1 he
  refine ⟨entries.set ((home fmt h entries.length e + d) % entries.length) e, ?_, ?_, ?_, ?_⟩
  · rw [put?, if_neg hkey, hland, hprobe]
    rfl
  · rw [List.length_set]
  · exact Table.live_set_perm hx (key_of_cell.1 hxcell) he
  · exact hlinked.set (by rw [he]; decide) fun _ => ⟨d, hd, rfl, hclear⟩

/-- All entries of a table are copied into a table with room. -/
theorem exists_foldlM_put? (fmt : Printf) (h : Heap) (old : List HashEntry) (hlen : entries.length = n) (hn : n = 2 ^ k)
    (hroom : (Table.live HashEntry.mark entries).length + (Table.live HashEntry.mark old).length < n)
    (hlinked : Table.Linked HashEntry.mark entries (home fmt h n)) :
    ∃ new, old.foldlM (put? fmt h n) entries = some new ∧ new.length = n ∧
      (Table.live HashEntry.mark new).Perm
        (Table.live HashEntry.mark old ++ Table.live HashEntry.mark entries) ∧
      Table.Linked HashEntry.mark new (home fmt h n) := by
  induction old generalizing entries with
  | nil => exact ⟨entries, rfl, hlen, List.Perm.refl _, hlinked⟩
  | cons e old ih =>
    by_cases he : e.mark = .live
    · have hcons : Table.live HashEntry.mark (e :: old) = e :: Table.live HashEntry.mark old := by
        simp [Table.live, he]
      rw [hcons, List.length_cons] at hroom
      obtain ⟨mid, hput, hmlen, hperm, hml⟩ := exists_put? hlen hn he (by omega) hlinked
      have hmcount := hperm.length_eq
      rw [List.length_cons] at hmcount
      obtain ⟨new, hfold, hnlen, hnperm, hnl⟩ := ih hmlen (by omega) hml
      refine ⟨new, ?_, hnlen, ?_, hnl⟩
      · rw [List.foldlM_cons, hput]
        exact hfold
      · rw [hcons]
        exact hnperm.trans ((hperm.append_left _).trans List.perm_middle)
    · have hskip : Table.live HashEntry.mark (e :: old) = Table.live HashEntry.mark old := by
        simp [Table.live, he]
      have hkey : e.key = .null := by
        by_contra hno
        exact he (HashEntry.mark_eq_live.2 hno)
      rw [hskip] at hroom ⊢
      obtain ⟨new, hfold, hrest⟩ := ih hlen hroom hlinked
      refine ⟨new, ?_, hrest⟩
      rw [List.foldlM_cons, put?, if_pos hkey]
      exact hfold

theorem live_replicate (n : ℕ) :
    Table.live HashEntry.mark (List.replicate n ({} : HashEntry)) = [] := by
  rw [Table.live, List.filter_eq_nil_iff]
  intro e he
  rw [List.eq_of_mem_replicate he]
  decide

theorem liveEntries_length_le (t : HashObj) : t.liveEntries.length ≤ t.entries.length :=
  List.length_filter_le _ _

/-- Growth keeps the entries, makes room and links every entry to its home. -/
theorem Sized.exists_grow? (fmt : Printf) (h : Heap) (hs : Sized t) :
    ∃ entries, grow? fmt h t = some { t with entries := entries } ∧
      (∃ k, entries.length = 2 ^ (k + 4)) ∧ entries.length = t.grownCapacity ∧
      (Table.live HashEntry.mark entries).Perm t.liveEntries ∧
      Table.Linked HashEntry.mark entries (home fmt h entries.length) := by
  have hle := liveEntries_length_le t
  obtain ⟨k, hk⟩ : ∃ k, t.grownCapacity = 2 ^ (k + 4) := by
    rcases hs.capacity with hnil | ⟨k, hk⟩
    · exact ⟨0, by simp [grownCapacity, hnil]⟩
    · refine ⟨k + 1, ?_⟩
      have hpos : t.entries.length ≠ 0 := by
        rw [hk]
        exact Nat.ne_of_gt (Nat.two_pow_pos _)
      rw [grownCapacity, if_neg hpos, hk, ← Nat.pow_succ]
  have hmore : t.liveEntries.length < t.grownCapacity := by
    unfold grownCapacity
    split_ifs <;> omega
  have hlinked : Table.Linked HashEntry.mark (List.replicate t.grownCapacity ({} : HashEntry))
      (home fmt h t.grownCapacity) := by
    intro p x hx hlive
    rw [List.eq_of_mem_replicate (List.mem_iff_getElem?.2 ⟨p, hx⟩)] at hlive
    cases hlive
  obtain ⟨entries, hfold, hlen, hperm, hl⟩ := exists_foldlM_put? fmt h t.entries
    (List.length_replicate (n := t.grownCapacity)) hk
    (by rw [live_replicate, List.length_nil, Nat.zero_add]; exact hmore) hlinked
  rw [live_replicate, List.append_nil] at hperm
  refine ⟨entries, ?_, ⟨k, hlen.trans hk⟩, hlen, hperm, hlen.symm ▸ hl⟩
  rw [grow?, hfold]
  rfl

end Growth

/-! ### Insertion -/

section Insertion

variable {fmt h} {t m : HashObj} {key value : Value}

theorem live_lt_of_count (hs : Sized t) (hroom : t.count < t.entries.length) :
    ∃ k, t.entries.length = 2 ^ k := by
  rcases hs.capacity with hnil | ⟨k, hk⟩
  · rw [hnil] at hroom
    cases hroom
  · exact ⟨k + 4, hk⟩

/-- The table that an insertion scans: grown if it was too full. -/
structure Prepared (fmt : Printf) (h : Heap) (t m : HashObj) : Prop where
  sized : Sized m
  room : m.count < m.entries.length
  same : m = { t with entries := m.entries }
  perm : m.liveEntries.Perm t.liveEntries
  grown : m.entries = t.entries ∨
    Table.Linked HashEntry.mark m.entries (home fmt h m.entries.length)

/-- What an insertion does to the table it scans. -/
inductive Stores (fmt : Printf) (h : Heap) (m : HashObj) (key value : Value) : HashObj → Prop where
  /-- The key is there already. -/
  | update (p : ℕ) (e : HashEntry) (hfound : lookup fmt h m key = some p)
      (he : m.entries[p]? = some e) (hlive : e.mark = .live)
      (hkey : keyEquals fmt h e.key key) :
      Stores fmt h m key value { m with entries := m.entries.set p { e with value } }
  /-- A slot without an entry is taken. -/
  | insert (p : ℕ) (e : HashEntry) (hfound : lookup fmt h m key = none)
      (he : m.entries[p]? = some e) (hlive : e.mark ≠ .live)
      (hwalk : ∃ d < m.entries.length,
        p = ((hashValue fmt h key).toNat % m.entries.length + d) % m.entries.length ∧
          Table.Clear HashEntry.mark m.entries ((hashValue fmt h key).toNat % m.entries.length) d) :
      Stores fmt h m key value { m with
        entries := m.entries.set p ⟨key, value, m.nextSequence + 1⟩
        nextSequence := m.nextSequence + 1
        count := m.count + 1 }

theorem lookup_eq (fmt : Printf) (h : Heap) {k : ℕ} (hlen : m.entries.length = 2 ^ k) (key : Value) :
    lookup fmt h m key = Table.search HashEntry.mark (fun e => keyEquals fmt h e.key key) m.entries
      m.entries.length ((hashValue fmt h key).toNat % m.entries.length) := by
  have hpos : 0 < m.entries.length := by
    rw [hlen]
    exact Nat.two_pow_pos k
  rw [lookup, land_eq_mod hlen, lookupLoop_eq hlen (Nat.mod_lt _ hpos)]

theorem lookup_empty (hnil : t.entries = []) (key : Value) : lookup fmt h t key = none := by
  rw [lookup, hnil]
  rfl

/-- A lookup finds an entry. -/
theorem Sized.lookup_some (hs : Sized t) {p : ℕ} (hp : lookup fmt h t key = some p) :
    ∃ e, t.entries[p]? = some e ∧ e.mark = .live := by
  rcases hs.capacity with hnil | ⟨k, hk⟩
  · rw [lookup_empty hnil] at hp
    cases hp
  · rw [lookup_eq fmt h hk] at hp
    obtain ⟨e, he, hlive, -⟩ := Table.search_some hp
    exact ⟨e, he, hlive⟩

/-- The growth at the start of an insertion leaves room. -/
theorem Sized.exists_prepared (fmt : Printf) (h : Heap) (hs : Sized t) :
    ∃ m, Prepared fmt h t m ∧ makeRoom? fmt h t = some m := by
  have hcount := hs.count
  by_cases hfull : t.count + 1 > t.entries.length * 3 / 4
  · obtain ⟨entries, hgrow, ⟨k, hk⟩, hlen, hperm, hlinked⟩ := hs.exists_grow? fmt h
    have hpos : entries.length ≠ 0 := by
      rw [hk]
      exact Nat.ne_of_gt (Nat.two_pow_pos _)
    have hle := liveEntries_length_le t
    have hcap : t.count < entries.length := by
      rw [hlen, grownCapacity]
      split_ifs <;> omega
    refine ⟨{ t with entries := entries },
      ⟨⟨.inr ⟨k, hk⟩, hcount.trans hperm.length_eq.symm⟩, hcap, rfl, hperm, .inr hlinked⟩, ?_⟩
    rw [makeRoom?, if_pos hfull, hgrow]
    exact if_neg hpos
  · have hroom : t.count < t.entries.length := by omega
    have hpos : t.entries.length ≠ 0 := by omega
    refine ⟨t, ⟨hs, hroom, rfl, List.Perm.refl _, .inl rfl⟩, ?_⟩
    rw [makeRoom?, if_neg hfull]
    exact if_neg hpos

/-- An insertion ends, and stores into a table that has room. -/
theorem Sized.exists_set? (fmt : Printf) (h : Heap) (hs : Sized t) (key value : Value) :
    ∃ m t', Prepared fmt h t m ∧ set? fmt h t key value = some t' ∧
      Stores fmt h m key value t' := by
  obtain ⟨m, hm, heq⟩ := hs.exists_prepared fmt h
  obtain ⟨k, hk⟩ := live_lt_of_count hm.sized hm.room
  have hpos : 0 < m.entries.length := by
    rw [hk]
    exact Nat.two_pow_pos k
  have hi : (hashValue fmt h key).toNat % m.entries.length < m.entries.length := Nat.mod_lt _ hpos
  have hloop : set? fmt h t key value =
      match scan fmt h m.entries key m.entries.length
        ((hashValue fmt h key).toNat &&& (m.entries.length - 1)) none with
      | .present idx => some { m with entries := m.entries.modify idx fun e => { e with value } }
      | .free idx => some { m with
          entries := m.entries.set idx ⟨key, value, m.nextSequence + 1⟩
          nextSequence := m.nextSequence + 1
          count := m.count + 1 }
      | .full => (grow? fmt h m).bind (setLoop? fmt h key value 1) := by
    rw [set?, setLoop?, heq]
    rfl
  rw [land_eq_mod hk, scan_eq hk hi] at hloop
  have hlook := lookup_eq fmt h hk key
  cases hv : Table.vacancy HashEntry.mark (fun e => keyEquals fmt h e.key key) m.entries
      m.entries.length ((hashValue fmt h key).toNat % m.entries.length) none with
  | present p =>
    rw [hv] at hloop
    rw [Table.vacancy_present] at hv
    obtain ⟨e, he, hlive, hkey⟩ := Table.search_some hv
    refine ⟨m, _, hm, ?_, .update p e (hlook.trans hv) he hlive hkey⟩
    rw [hloop]
    dsimp only
    rw [List.modify_eq_set_getElem?, he]
    rfl
  | vacant p =>
    rw [hv] at hloop
    have hnone : Table.search HashEntry.mark (fun e => keyEquals fmt h e.key key) m.entries
        m.entries.length ((hashValue fmt h key).toNat % m.entries.length) = none := by
      cases hs : Table.search HashEntry.mark (fun e => keyEquals fmt h e.key key) m.entries
        m.entries.length ((hashValue fmt h key).toNat % m.entries.length) with
      | none => rfl
      | some q =>
        rw [Table.vacancy_present.2 hs] at hv
        cases hv
    rcases Table.vacancy_vacant hi hv with hdead | ⟨-, d, hd, hp, hclear, e, he, hlive⟩
    · cases hdead
    · exact ⟨m, _, hm, hloop, .insert p e (hlook.trans hnone) he hlive ⟨d, hd, hp, hclear⟩⟩
  | full =>
    -- a table with room has a slot without an entry
    have hall := Table.vacancy_full hi hv
    obtain ⟨p, e, he, hdead⟩ := Table.exists_not_live (t := m.entries)
      (by rw [← liveEntries, ← hm.sized.count]; exact hm.room)
    have hp := (List.getElem?_eq_some_iff.1 he).1
    obtain ⟨d, hd, hwalk⟩ : ∃ d < m.entries.length,
        ((hashValue fmt h key).toNat % m.entries.length + d) % m.entries.length = p := by
      refine ⟨(p + m.entries.length - (hashValue fmt h key).toNat % m.entries.length) %
        m.entries.length, Nat.mod_lt _ hpos, ?_⟩
      rw [Nat.add_mod_mod, show (hashValue fmt h key).toNat % m.entries.length +
        (p + m.entries.length - (hashValue fmt h key).toNat % m.entries.length) =
          p + m.entries.length by omega, Nat.add_mod_right, Nat.mod_eq_of_lt hp]
    exact absurd (hall d hd e (hwalk.symm ▸ he)) hdead

end Insertion

end HashObj

end Slp
