import Mathlib.Data.List.Find
import Mathlib.Data.Prod.Lex
import Mathlib.Order.OrderDual
import Slp.Table.Ranking
import Slp.Object.Hash

/-!
# The order of a hash table

`HashObj.ordered` lists the slots of a table by ordinal.  Whatever the mode, `hash_entry_precedes`
is a linear order on the live slots (`orderedIndex_eq`), by sequence number or by bucket and
sequence number.  `OrderRun` follows a table through its calls together with a log of keys: a key
enters at the end when a call inserts it, leaves when it is deleted, and moves to the end when a
table in access order reads it.  Each call may come with another heap, so nothing is assumed of
the keys.
-/

namespace Slp

namespace HashObj

variable (fmt : Printf) (h : Heap)

/-- The slots of a table by ordinal. -/
def ordered (t : HashObj) : List ℕ :=
  (List.range t.count).filterMap fun ordinal : ℕ => orderedIndex fmt h t ordinal

/-- The key of a slot. -/
def keyAt (t : HashObj) (p : ℕ) : Value := (t.entries.getD p {}).key

/-- The position of a slot in the order. -/
def position (t : HashObj) (p : ℕ) : ℕ := (ordered fmt h t).idxOf p

/-- The log after a lookup: a table in access order moves the key of the slot to the end. -/
def touchLog (t : HashObj) (key : Value) (log : List Value) : List Value :=
  match lookup fmt h t key with
  | none => log
  | some p =>
    if t.orderMode = 2 ∧ (t.entries.getD p {}).value ≠ .null then
      log.eraseIdx (position fmt h t p) ++ [keyAt t p]
    else log

/-- The log after a deletion. -/
def deleteLog (t : HashObj) (key : Value) (log : List Value) : List Value :=
  match lookup fmt h t key with
  | none => log
  | some p => log.eraseIdx (position fmt h t p)

/-- A table after some calls, and the log of its keys.  A call of `slp_obj_hash_set` that adds no
entry is an update. -/
inductive OrderRun : HashObj → List Value → Prop where
  | start (t : HashObj) (hentries : t.entries = []) (hcount : t.count = 0) : OrderRun t []
  | set {t t' : HashObj} {log : List Value} (h : Heap) (key value : Value) (hrun : OrderRun t log)
      (hkey : key ≠ .null) (hset : set? fmt h t key value = some t') :
      OrderRun t' (if t'.count = t.count then log else log ++ [key])
  | get {t : HashObj} {log : List Value} (h : Heap) (key : Value) (hrun : OrderRun t log)
      (hkey : key ≠ .null) : OrderRun (get fmt h t key).1 (touchLog fmt h t key log)
  | delete {t : HashObj} {log : List Value} (h : Heap) (key : Value) (hrun : OrderRun t log)
      (hkey : key ≠ .null) : OrderRun (delete fmt h t key).1 (deleteLog fmt h t key log)

/-- The live slots of a table. -/
def slots (t : HashObj) : List ℕ :=
  (List.range t.entries.length).filter fun p => !((t.entries.getD p {}).key = .null)

/-- The entries of a table in the order of their sequence numbers. -/
structure InOrder (t : HashObj) (es : List HashEntry) : Prop where
  sized : Sized t
  perm : es.Perm t.liveEntries
  ascending : Table.Ascending HashEntry.sequence es
  bounded : ∀ e ∈ es, e.sequence ≤ t.nextSequence

section Slots

variable {fmt h} {t : HashObj} {p : ℕ} {e : HashEntry}

theorem getD_of_getElem? (he : t.entries[p]? = some e) : t.entries.getD p {} = e := by
  rw [List.getD_eq_getElem?_getD, he]
  rfl

theorem mem_slots : p ∈ slots t ↔ ∃ e, t.entries[p]? = some e ∧ e.mark = .live := by
  rw [slots, List.mem_filter, List.mem_range]
  constructor
  · rintro ⟨hp, hkey⟩
    refine ⟨t.entries[p], List.getElem?_eq_getElem hp, ?_⟩
    rw [getD_of_getElem? (List.getElem?_eq_getElem hp)] at hkey
    rw [HashEntry.mark_eq_live]
    simpa using hkey
  · rintro ⟨e, he, hlive⟩
    refine ⟨(List.getElem?_eq_some_iff.1 he).1, ?_⟩
    rw [getD_of_getElem? he]
    simpa using HashEntry.mark_eq_live.1 hlive

theorem map_slots (t : HashObj) :
    (slots t).map (fun p => t.entries.getD p {}) = t.liveEntries := by
  have hall : (List.range t.entries.length).map (fun p => t.entries.getD p {}) = t.entries := by
    refine List.ext_getElem (by simp) fun i hi _ => ?_
    rw [List.getElem_map, List.getElem_range]
    have hi : i < t.entries.length := by simpa using hi
    exact getD_of_getElem? (List.getElem?_eq_getElem hi)
  rw [liveEntries, Table.live, ← hall, List.filter_map, hall, slots]
  congr 1
  refine List.filter_congr fun p _ => ?_
  simp only [Function.comp_apply, HashEntry.mark_eq_live, ne_eq, decide_not]

theorem nodup_slots (t : HashObj) : (slots t).Nodup := List.nodup_range.filter _

theorem Sized.length_slots (hs : Sized t) : (slots t).length = t.count := by
  rw [hs.count, ← map_slots, List.length_map]

/-- When the slots are in order under `f`, the ordinals list them in that order. -/
theorem ordered_eq {β : Type*} [LinearOrder β] {f : ℕ → β} {s : List ℕ} (hs : Sized t)
    (hprec : ∀ p ∈ slots t, ∀ q ∈ slots t, entryPrecedes fmt h t p q = true ↔ f p < f q)
    (hperm : s.Perm (slots t)) (hasc : Table.Ascending f s) :
    (∀ i < t.count, orderedIndex fmt h t i = s[i]?) ∧ ordered fmt h t = s := by
  have hlen : s.length = t.count := hperm.length_eq.trans hs.length_slots
  have hlive : ∀ p < t.entries.length, p ∉ slots t → (t.entries[p]?.getD {}).key = .null := by
    intro p hp hno
    by_contra hkey
    exact hno (List.mem_filter.2 ⟨List.mem_range.2 hp, by simpa using hkey⟩)
  have hkey : ∀ p ∈ slots t, (t.entries[p]?.getD {}).key ≠ .null := by
    intro p hp
    rw [slots, List.mem_filter] at hp
    simpa using hp.2
  have hrank : ∀ p ∈ slots t, rank fmt h t p = Table.rankIn f (slots t) p := by
    intro p hp
    unfold rank Table.rankIn
    conv_rhs => rw [slots, List.countP_filter]
    refine List.countP_congr fun q hq => ?_
    by_cases hqs : q ∈ slots t
    · by_cases heq : q = p
      · simp [heq]
      · simp [hkey q hqs, heq, hprec q hqs p hp]
    · simp [hlive q (List.mem_range.1 hq) hqs]
  have hindex : ∀ i < t.count, orderedIndex fmt h t i = s[i]? := by
    intro i hi
    rw [orderedIndex, if_neg (by omega), ← hasc.find?_rank hperm i]
    conv_rhs => rw [slots, List.find?_filter]
    refine List.find?_congr fun p hp => ?_
    by_cases hps : p ∈ slots t
    · simp [hrank p hps, hkey p hps, slots]
    · simp [hlive p (List.mem_range.1 hp) hps]
  have hall : (List.range t.count).map (fun i : ℕ => orderedIndex fmt h t i) = s.map some := by
    refine List.ext_getElem (by simp [hlen]) fun i hi _ => ?_
    have hi : i < t.count := by simpa using hi
    rw [List.getElem_map, List.getElem_range, hindex i hi, List.getElem_map]
    exact List.getElem?_eq_getElem (hlen ▸ hi)
  refine ⟨hindex, ?_⟩
  have hid := List.filterMap_map (f := fun i : ℕ => orderedIndex fmt h t i) (g := id)
    (l := List.range t.count)
  rw [hall, List.filterMap_map] at hid
  simpa [ordered] using hid.symm

/-- In every mode the slots are in a linear order. -/
theorem exists_order (fmt : Printf) (h : Heap) (hn : (t.liveEntries.map HashEntry.sequence).Nodup) :
    ∃ (β : Type) (_ : LinearOrder β) (f : ℕ → β),
      (∀ p q, entryPrecedes fmt h t p q = true ↔ f p < f q) ∧ ((slots t).map f).Nodup ∧
      (t.orderMode ≠ 0 → ∀ p q, f p < f q →
        (t.entries.getD p {}).sequence < (t.entries.getD q {}).sequence) := by
  rw [← map_slots, List.map_map] at hn
  by_cases hmode : t.orderMode = 0
  · -- by bucket, and in a bucket the latest entry first
    let f (p : ℕ) : ℕ ×ₗ ℕᵒᵈ :=
      toLex ((hashValue fmt h (t.entries.getD p {}).key).toNat &&& (t.entries.length - 1),
        OrderDual.toDual (t.entries.getD p {}).sequence)
    have hf : ((slots t).map f).Nodup := by
      refine List.Nodup.of_map (fun x => OrderDual.ofDual (ofLex x).2) ?_
      rwa [List.map_map]
    refine ⟨_, inferInstance, f, ?_, hf, fun hno => absurd hmode hno⟩
    intro p q
    rw [entryPrecedes, if_neg (by simp [hmode]), Prod.Lex.toLex_lt_toLex]
    dsimp only
    rw [OrderDual.toDual_lt_toDual]
    split_ifs with hne
    · rw [decide_eq_true_eq]
      exact (or_iff_left fun hand => hne hand.1).symm
    · have heq := not_not.1 hne
      rw [decide_eq_true_eq, or_iff_right (fun hlt => absurd heq (Nat.ne_of_lt hlt)),
        and_iff_right heq]
  · refine ⟨ℕ, inferInstance, fun p => (t.entries.getD p {}).sequence, ?_, hn, fun _ _ _ => id⟩
    intro p q
    rw [entryPrecedes, if_pos hmode, decide_eq_true_eq]

/-- In every mode the ordinals of a table list its live slots, each once. -/
theorem ordered_spec (fmt : Printf) (h : Heap) (hs : Sized t) (hn : (t.liveEntries.map HashEntry.sequence).Nodup) :
    (∀ i < t.count, orderedIndex fmt h t i = (ordered fmt h t)[i]?) ∧
      (ordered fmt h t).Perm (slots t) ∧
      (t.orderMode ≠ 0 →
        Table.Ascending (fun p => (t.entries.getD p {}).sequence) (ordered fmt h t)) := by
  obtain ⟨β, _, f, hprec, hf, hmode⟩ := exists_order fmt h hn
  obtain ⟨s, hperm, hasc⟩ := Table.exists_ascending hf
  obtain ⟨hindex, heq⟩ := ordered_eq hs (fun p _ q _ => hprec p q) hperm hasc
  rw [heq]
  exact ⟨hindex, hperm, fun hno => hasc.imp (hmode hno _ _)⟩

/-- A deletion takes the slot out of the order, and leaves the others where they are. -/
theorem ordered_remove {t' : HashObj} {e' : HashEntry} {o₁ o₂ : List ℕ} (hs' : Sized t')
    (hs : Sized t) (hn : (t.liveEntries.map HashEntry.sequence).Nodup)
    (hdead : e'.mark ≠ .live) (hmode : t'.orderMode = t.orderMode)
    (hentries : t'.entries = t.entries.set p e') (ho : ordered fmt h t = o₁ ++ p :: o₂) :
    ordered fmt h t' = o₁ ++ o₂ := by
  obtain ⟨β, _, f, hprec, hf, -⟩ := exists_order fmt h hn
  obtain ⟨s, hperm, hasc⟩ := Table.exists_ascending hf
  obtain ⟨-, rfl⟩ := ordered_eq hs (fun p _ q _ => hprec p q) hperm hasc
  have hsub : (o₁ ++ o₂).Sublist (ordered fmt h t) := by
    rw [ho]
    exact (List.sublist_cons_self p o₂).append_left o₁
  have hnodup := hperm.nodup_iff.2 (nodup_slots t)
  have hother : ∀ q, q ≠ p → t'.entries.getD q {} = t.entries.getD q {} := by
    intro q hq
    rw [hentries, List.getD_eq_getElem?_getD, List.getElem?_set_ne hq.symm,
      ← List.getD_eq_getElem?_getD]
  have hslots : ∀ q, q ∈ slots t' ↔ q ∈ o₁ ++ o₂ := by
    intro q
    rw [ho, List.nodup_middle, List.nodup_cons] at hnodup
    have hmem : q ∈ slots t ↔ q = p ∨ q ∈ o₁ ++ o₂ := by
      rw [← hperm.mem_iff, ho]
      simp [or_left_comm]
    rw [mem_slots, hentries]
    by_cases hq : q = p
    · subst hq
      constructor
      · rintro ⟨e, he, hlive⟩
        rw [List.getElem?_set] at he
        split_ifs at he
        · exact absurd (Option.some.inj he ▸ hlive) hdead
        · contradiction
      · intro hin
        exact absurd hin hnodup.1
    · rw [List.getElem?_set_ne (Ne.symm hq), ← mem_slots, hmem, or_iff_right hq]
  refine (ordered_eq hs' (f := f) ?_ ?_ (hasc.sublist hsub)).2
  · intro q hq q' hq'
    have hne : ∀ x ∈ slots t', x ≠ p := by
      rintro x hx rfl
      rw [ho, List.nodup_middle, List.nodup_cons] at hnodup
      exact hnodup.1 ((hslots x).1 hx)
    rw [← hprec q q', entryPrecedes, entryPrecedes, hother q (hne q hq), hother q' (hne q' hq'),
      hmode, hentries, List.length_set]
  · exact (List.perm_ext_iff_of_nodup (hnodup.sublist hsub) (nodup_slots t')).2
      fun q => (hslots q).symm

end Slots

/-! ### Steps -/

section Steps

variable {fmt h} {t t' m : HashObj} {es l₁ l₂ : List HashEntry} {e e' : HashEntry} {p : ℕ}
  {key value : Value} {log : List Value}

theorem InOrder.nodup_sequence (ho : InOrder t es) :
    (t.liveEntries.map HashEntry.sequence).Nodup := by
  rw [← (ho.perm.map _).nodup_iff, List.Nodup, List.pairwise_map]
  exact ho.ascending.imp fun hlt => Nat.ne_of_lt hlt

/-- The entries by ordinal are the entries by sequence number. -/
theorem InOrder.map_ordered (fmt : Printf) (h : Heap) (ho : InOrder t es) (hmode : t.orderMode ≠ 0) :
    (ordered fmt h t).map (fun p => t.entries.getD p {}) = es := by
  obtain ⟨-, hperm, hasc⟩ := ordered_spec fmt h ho.sized ho.nodup_sequence
  have hasc := hasc hmode
  refine Table.Ascending.eq_of_perm (f := HashEntry.sequence) ?_ ho.ascending ?_
  · rw [Table.Ascending, List.pairwise_map]
    exact hasc
  · have hmap := hperm.map fun p => t.entries.getD p {}
    rw [map_slots] at hmap
    exact hmap.trans ho.perm.symm

/-- The position of an entry is the number of entries before it. -/
theorem InOrder.position_eq (ho : InOrder t (l₁ ++ e :: l₂)) (hmode : t.orderMode ≠ 0)
    (hp : t.entries[p]? = some e) (hlive : e.mark = .live) :
    position fmt h t p = l₁.length := by
  obtain ⟨-, hperm, -⟩ := ordered_spec fmt h ho.sized ho.nodup_sequence
  obtain ⟨o₁, rest, horder, rfl, hrest⟩ :=
    List.map_eq_append_iff.1 (ho.map_ordered fmt h hmode)
  obtain ⟨q, o₂, rfl, hq, -⟩ := List.map_eq_cons_iff.1 hrest
  have hmem : q ∈ ordered fmt h t := by
    rw [horder]
    exact List.mem_append_right _ List.mem_cons_self
  -- the slot `q` holds the entry too, so it is `p`
  obtain ⟨x, hx, hxlive⟩ := mem_slots.1 (hperm.mem_iff.1 hmem)
  rw [getD_of_getElem? hx] at hq
  subst hq
  have hqp : q = p := Table.live_unique ho.nodup_sequence hx hxlive hp hlive rfl
  subst hqp
  have hnodup := hperm.nodup_iff.2 (nodup_slots t)
  rw [horder, List.nodup_middle, List.nodup_cons, List.mem_append, not_or] at hnodup
  rw [position, horder, List.idxOf_append_of_notMem hnodup.1.1, List.idxOf_cons_self,
    Nat.add_zero, List.length_map]

/-- The entry of a slot, among the entries in order. -/
theorem InOrder.split (ho : InOrder t es) (hp : t.entries[p]? = some e) (hlive : e.mark = .live) :
    ∃ l₁ l₂, es = l₁ ++ e :: l₂ :=
  List.append_of_mem (ho.perm.mem_iff.2 (Table.mem_live.2 ⟨p, hp, hlive⟩))

theorem InOrder.prepared (ho : InOrder t es) (hm : Prepared fmt h t m) : InOrder m es where
  sized := hm.sized
  perm := ho.perm.trans hm.perm.symm
  ascending := ho.ascending
  bounded := by
    rw [hm.same]
    exact ho.bounded

/-- An update leaves the entry at its place. -/
theorem InOrder.update (e' : HashEntry) (ho : InOrder t (l₁ ++ e :: l₂)) (hp : t.entries[p]? = some e)
    (hlive : e.mark = .live) (hlive' : e'.mark = .live) (hseq : e'.sequence = e.sequence)
    (hentries : t'.entries = t.entries.set p e') (hcount : t'.count = t.count)
    (hnext : t'.nextSequence = t.nextSequence) : InOrder t' (l₁ ++ e' :: l₂) := by
  obtain ⟨rest, hold, hnew⟩ := Table.exists_live_set hp hlive hlive'
  have hperm := List.perm_middle.symm.trans (ho.perm.trans hold)
  have hasc := ho.ascending
  have hbound := ho.bounded
  refine ⟨ho.sized.replace hp hlive hlive' hentries hcount, ?_, ?_, ?_⟩
  · rw [liveEntries, hentries]
    exact List.perm_middle.trans (((List.perm_cons e).1 hperm).cons e' |>.trans hnew.symm)
  · simp only [Table.Ascending, List.pairwise_append, List.pairwise_cons, List.mem_cons,
      forall_eq_or_imp, hseq] at hasc ⊢
    exact hasc
  · rw [hnext]
    simp only [List.mem_append, List.mem_cons, or_imp, forall_and, forall_eq, hseq] at hbound ⊢
    exact hbound

/-- A deletion takes the entry out of the order. -/
theorem InOrder.remove (e' : HashEntry) (ho : InOrder t (l₁ ++ e :: l₂)) (hp : t.entries[p]? = some e)
    (hlive : e.mark = .live) (hdead : e'.mark ≠ .live)
    (hentries : t'.entries = t.entries.set p e') (hcount : t'.count = t.count - 1)
    (hnext : t'.nextSequence = t.nextSequence) : InOrder t' (l₁ ++ l₂) := by
  have hold := Table.live_set_dead hp hlive hdead
  have hperm := List.perm_middle.symm.trans (ho.perm.trans hold)
  have hsub : (l₁ ++ l₂).Sublist (l₁ ++ e :: l₂) := (List.sublist_cons_self e l₂).append_left l₁
  refine ⟨ho.sized.remove hp hlive hdead hentries hcount, ?_, ho.ascending.sublist hsub, ?_⟩
  · rw [liveEntries, hentries]
    exact (List.perm_cons e).1 hperm
  · intro x hx
    rw [hnext]
    exact ho.bounded x (hsub.subset hx)

/-- An entry with the next sequence number is last. -/
theorem ascending_append (hasc : Table.Ascending HashEntry.sequence es)
    (hbound : ∀ e ∈ es, e.sequence ≤ t.nextSequence) (hseq : e'.sequence = t.nextSequence + 1) :
    Table.Ascending HashEntry.sequence (es ++ [e']) := by
  refine List.pairwise_append.2 ⟨hasc, List.pairwise_singleton _ _, ?_⟩
  intro x hx y hy
  rw [List.mem_singleton.1 hy, hseq]
  exact Nat.lt_succ_of_le (hbound x hx)

theorem bounded_append {n : ℕ} (hbound : ∀ e ∈ es, e.sequence ≤ n) (hseq : e'.sequence = n + 1) :
    ∀ e ∈ es ++ [e'], e.sequence ≤ n + 1 := by
  intro x hx
  rcases List.mem_append.1 hx with hx | hx
  · exact Nat.le_succ_of_le (hbound x hx)
  · rw [List.mem_singleton.1 hx, hseq]

/-- An insertion puts the entry last. -/
theorem InOrder.insert (e' : HashEntry) (ho : InOrder t es) (hp : t.entries[p]? = some e) (hdead : e.mark ≠ .live)
    (hlive : e'.mark = .live) (hseq : e'.sequence = t.nextSequence + 1)
    (hentries : t'.entries = t.entries.set p e') (hcount : t'.count = t.count + 1)
    (hnext : t'.nextSequence = t.nextSequence + 1) : InOrder t' (es ++ [e']) := by
  refine ⟨ho.sized.insert hp hdead hlive hentries hcount, ?_,
    ascending_append ho.ascending ho.bounded hseq, ?_⟩
  · rw [liveEntries, hentries]
    exact (List.perm_append_singleton e' es).trans
      ((ho.perm.cons e').trans (Table.live_set_perm hp hdead hlive).symm)
  · rw [hnext]
    exact bounded_append ho.bounded hseq

/-- A lookup in access order puts the entry last. -/
theorem InOrder.touch (e' : HashEntry) (ho : InOrder t (l₁ ++ e :: l₂)) (hp : t.entries[p]? = some e)
    (hlive : e.mark = .live) (hlive' : e'.mark = .live) (hseq : e'.sequence = t.nextSequence + 1)
    (hentries : t'.entries = t.entries.set p e') (hcount : t'.count = t.count)
    (hnext : t'.nextSequence = t.nextSequence + 1) : InOrder t' (l₁ ++ l₂ ++ [e']) := by
  obtain ⟨rest, hold, hnew⟩ := Table.exists_live_set hp hlive hlive'
  have hperm := List.perm_middle.symm.trans (ho.perm.trans hold)
  have hsub : (l₁ ++ l₂).Sublist (l₁ ++ e :: l₂) := (List.sublist_cons_self e l₂).append_left l₁
  have hbound : ∀ x ∈ l₁ ++ l₂, x.sequence ≤ t.nextSequence := fun x hx =>
    ho.bounded x (hsub.subset hx)
  refine ⟨ho.sized.replace hp hlive hlive' hentries hcount, ?_,
    ascending_append (ho.ascending.sublist hsub) hbound hseq, ?_⟩
  · rw [liveEntries, hentries]
    exact (List.perm_append_singleton e' _).trans
      ((((List.perm_cons e).1 hperm).cons e').trans hnew.symm)
  · rw [hnext]
    exact bounded_append hbound hseq

theorem eraseIdx_map_middle (l₁ : List HashEntry) (e : HashEntry) (l₂ : List HashEntry) :
    ((l₁ ++ e :: l₂).map HashEntry.key).eraseIdx l₁.length = (l₁ ++ l₂).map HashEntry.key := by
  rw [List.map_append, List.map_cons, ← List.length_map HashEntry.key,
    List.eraseIdx_append_of_length_le (Nat.le_refl _), Nat.sub_self, List.eraseIdx_cons_zero,
    List.map_append]

/-- A store replaces the value of an entry with an equal key, or puts a new entry last. -/
theorem InOrder.set? (ho : InOrder t es) (hkey : key ≠ .null) (hset : set? fmt h t key value = some t') :
    t' = { t with entries := t'.entries, count := t'.count, nextSequence := t'.nextSequence } ∧
      ((∃ l₁ e l₂, es = l₁ ++ e :: l₂ ∧ keyEquals fmt h e.key key ∧ t'.count = t.count ∧
          InOrder t' (l₁ ++ { e with value } :: l₂)) ∨
        ∃ m e', Prepared fmt h t m ∧ lookup fmt h m key = none ∧ e'.key = key ∧ e'.value = value ∧
          t'.count = t.count + 1 ∧ InOrder t' (es ++ [e'])) := by
  obtain ⟨m, t'', hm, hset', hst⟩ := ho.sized.exists_set? fmt h key value
  obtain rfl := Option.some.inj (hset.symm.trans hset')
  have hom := ho.prepared hm
  have hcount : m.count = t.count := by rw [hm.same]
  cases hst with
  | update p e hfound he hlive hequal =>
    obtain ⟨l₁, l₂, rfl⟩ := hom.split he hlive
    have hlive' : ({ e with value } : HashEntry).mark = .live :=
      HashEntry.mark_of_key (e := e) rfl hlive
    exact ⟨by rw [hm.same], .inl ⟨l₁, e, l₂, rfl, hequal, hcount,
      hom.update { e with value } he hlive hlive' rfl rfl rfl rfl⟩⟩
  | insert p e hfound he hdead hwalk =>
    refine ⟨by rw [hm.same], .inr ⟨m, ⟨key, value, m.nextSequence + 1⟩, hm, hfound, rfl, rfl, ?_, ?_⟩⟩
    · dsimp only
      rw [hcount]
    · exact hom.insert ⟨key, value, m.nextSequence + 1⟩ he hdead
        (HashEntry.mark_eq_live.2 hkey) rfl rfl rfl rfl

/-- A lookup that finds an entry puts it last, in a table in access order whose entry has a value. -/
theorem InOrder.getRaw (ho : InOrder t es) (hp : lookup fmt h t key = some p)
    (he : t.entries[p]? = some e) (hlive : e.mark = .live) :
    ∃ l₁ l₂, es = l₁ ++ e :: l₂ ∧
      if t.orderMode = 2 ∧ e.value ≠ .null then
        ∃ e' : HashEntry, e'.key = e.key ∧ e'.value = e.value ∧
          InOrder (HashObj.getRaw fmt h t key).1 (l₁ ++ l₂ ++ [e'])
      else (HashObj.getRaw fmt h t key).1 = t := by
  obtain ⟨l₁, l₂, rfl⟩ := ho.split he hlive
  refine ⟨l₁, l₂, rfl, ?_⟩
  rw [getRaw_some hp he]
  dsimp only
  rw [touched]
  split_ifs with hmoves
  · have hlive' : ({ e with sequence := t.nextSequence + 1 } : HashEntry).mark = .live :=
      HashEntry.mark_of_key (e := e) rfl hlive
    exact ⟨{ e with sequence := t.nextSequence + 1 }, rfl, rfl,
      ho.touch { e with sequence := t.nextSequence + 1 } he hlive hlive' rfl rfl rfl rfl⟩
  · rfl

/-- A deletion that finds an entry takes it out. -/
theorem InOrder.delete (ho : InOrder t es) (hp : lookup fmt h t key = some p)
    (he : t.entries[p]? = some e) (hlive : e.mark = .live) :
    ∃ l₁ l₂, es = l₁ ++ e :: l₂ ∧ InOrder (HashObj.delete fmt h t key).1 (l₁ ++ l₂) := by
  obtain ⟨l₁, l₂, rfl⟩ := ho.split he hlive
  refine ⟨l₁, l₂, rfl, ?_⟩
  rw [delete_some hp]
  exact ho.remove { key := .null, value := .bool true, sequence := 0 } he hlive (by decide) rfl rfl rfl

/-- A run keeps the entries in order, and outside of the bucket order the log is their keys. -/
theorem OrderRun.inOrder (hrun : OrderRun fmt t log) :
    ∃ es, InOrder t es ∧ (t.orderMode ≠ 0 → es.map HashEntry.key = log) := by
  induction hrun with
  | start t hentries hcount =>
    have hlive : t.liveEntries = [] := by rw [liveEntries, hentries]; rfl
    exact ⟨[], ⟨⟨.inl hentries, by rw [hcount, hlive]; rfl⟩, by rw [hlive], List.Pairwise.nil,
      by simp⟩, fun _ => rfl⟩
  | set h key value _ hkey hset ih =>
    obtain ⟨es, ho, hlog⟩ := ih
    obtain ⟨hsame, ⟨l₁, e, l₂, rfl, -, hcount, ho'⟩ | ⟨-, e', -, -, hekey, -, hcount, ho'⟩⟩ :=
      ho.set? hkey hset
    all_goals have hmode := congrArg HashObj.orderMode hsame
    · refine ⟨_, ho', fun hno => ?_⟩
      rw [if_pos hcount, ← hlog (hmode ▸ hno), List.map_append, List.map_append]
      rfl
    · refine ⟨_, ho', fun hno => ?_⟩
      rw [if_neg (by omega), ← hlog (hmode ▸ hno), List.map_append, List.map_singleton, hekey]
  | @get t₀ log h key _ hkey ih =>
    obtain ⟨es, ho, hlog⟩ := ih
    unfold HashObj.get touchLog
    cases hfound : lookup fmt h t₀ key with
    | none =>
      rw [getRaw_none hfound]
      exact ⟨es, ho, hlog⟩
    | some p =>
      obtain ⟨e, he, hlive⟩ := ho.sized.lookup_some hfound
      obtain ⟨l₁, l₂, rfl, hread⟩ := ho.getRaw hfound he hlive
      dsimp only
      rw [getD_of_getElem? he]
      split_ifs at hread ⊢ with hmoves
      · obtain ⟨e', hekey, -, ho'⟩ := hread
        have hmode : t₀.orderMode ≠ 0 := by rw [hmoves.1]; decide
        refine ⟨_, ho', fun _ => ?_⟩
        rw [ho.position_eq hmode he hlive, ← hlog hmode, eraseIdx_map_middle, keyAt,
          getD_of_getElem? he, List.map_append, List.map_singleton, hekey]
      · rw [hread]
        exact ⟨_, ho, hlog⟩
  | @delete t₀ log h key _ hkey ih =>
    obtain ⟨es, ho, hlog⟩ := ih
    unfold deleteLog
    cases hfound : lookup fmt h t₀ key with
    | none =>
      rw [delete_none hfound]
      exact ⟨es, ho, hlog⟩
    | some p =>
      obtain ⟨e, he, hlive⟩ := ho.sized.lookup_some hfound
      obtain ⟨l₁, l₂, rfl, ho'⟩ := ho.delete hfound he hlive
      refine ⟨_, ho', fun hmode => ?_⟩
      rw [delete_some hfound] at hmode
      rw [← hlog hmode]
      dsimp only
      rw [ho.position_eq hmode he hlive, eraseIdx_map_middle]

end Steps

end HashObj

end Slp
