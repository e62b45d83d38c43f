import Mathlib.Logic.Function.Basic
import Slp.Object.Hash

/-!
# A hash table is a map

`Labels` are names of keys under which the table works: keys with one label are equal and hash to
one code, keys with different labels differ.  `Refines` relates a table whose keys have labels to a
map from labels to values: the table is linked, no two entries have one label, and the entries are
the map.  The calls of the table keep it (`Refines.exists_set?`, `Refines.getRaw`,
`Refines.delete`), and so does a change of the heap that leaves the labels of the keys in the table
alone (`Refines.steady`).
-/

namespace Slp

namespace HashObj

/-- Labels that tell keys apart as the table does. -/
structure Labels (fmt : Printf) (h : Heap) (κ : Type) where
  label : Value → Option κ
  code : κ → UInt32
  hash : ∀ {key : Value} {x : κ}, label key = some x → hashValue fmt h key = code x
  equal : ∀ {k k' : Value} {x x' : κ}, label k = some x → label k' = some x' →
    (keyEquals fmt h k k' = true ↔ x = x')

variable {fmt : Printf} {h : Heap} {κ : Type}

/-- The entries of the table are the map. -/
structure Refines (L : Labels fmt h κ) (t : HashObj) (d : κ → Option Value) : Prop where
  sized : Sized t
  linked : Table.Linked HashEntry.mark t.entries (home fmt h t.entries.length)
  distinct : (t.liveEntries.map fun e => L.label e.key).Nodup
  label : ∀ e ∈ t.liveEntries, (L.label e.key).isSome
  dict : ∀ x v, d x = some v ↔ ∃ e ∈ t.liveEntries, L.label e.key = some x ∧ e.value = v

variable {L : Labels fmt h κ} {t t' m : HashObj} {d : κ → Option Value} {key value : Value}
  {x : κ} {p : ℕ} {e e' : HashEntry}

theorem mem_liveEntries : e ∈ t.liveEntries ↔ ∃ p : ℕ, t.entries[p]? = some e ∧ e.mark = .live :=
  Table.mem_live

/-- An entry has the label of a key exactly if it is equal to the key. -/
theorem Refines.keyEquals_iff (hr : Refines L t d) (he : e ∈ t.liveEntries)
    (hkey : L.label key = some x) : keyEquals fmt h e.key key ↔ L.label e.key = some x := by
  obtain ⟨y, hy⟩ := Option.isSome_iff_exists.1 (hr.label e he)
  rw [L.equal hy hkey, hy, Option.some.injEq]

/-- A lookup finds the entry with the label of the key, if there is one. -/
theorem Refines.lookup (hr : Refines L t d) (hkey : L.label key = some x) :
    (HashObj.lookup fmt h t key = none ∧ d x = none) ∨
      ∃ p e, HashObj.lookup fmt h t key = some p ∧ t.entries[p]? = some e ∧ e.mark = .live ∧
        L.label e.key = some x ∧ d x = some e.value := by
  cases hd : d x with
  | none =>
    refine .inl ⟨?_, rfl⟩
    have hno : ∀ e ∈ t.liveEntries, ¬keyEquals fmt h e.key key := by
      intro e he heq
      have hsome := (hr.dict x e.value).2 ⟨e, he, (hr.keyEquals_iff he hkey).1 heq, rfl⟩
      rw [hd] at hsome
      cases hsome
    rcases hr.sized.capacity with hnil | ⟨k, hk⟩
    · exact lookup_empty hnil key
    · rw [lookup_eq fmt h hk]
      exact Table.search_eq_none fun q y hy hlive => hno y (mem_liveEntries.2 ⟨q, hy, hlive⟩)
  | some v =>
    obtain ⟨e, he, hlabel, rfl⟩ := (hr.dict x v).1 hd
    obtain ⟨p, hp, hlive⟩ := mem_liveEntries.1 he
    refine .inr ⟨p, e, ?_, hp, hlive, hlabel, rfl⟩
    rcases hr.sized.capacity with hnil | ⟨k, hk⟩
    · rw [hnil] at hp
      cases hp
    have hhome : home fmt h t.entries.length e =
        (hashValue fmt h key).toNat % t.entries.length := by
      rw [home, L.hash hlabel, L.hash hkey]
    have hpos : 0 < t.entries.length := by
      rw [hk]
      exact Nat.two_pow_pos _
    rw [lookup_eq fmt h hk, ← hhome]
    refine Table.search_eq hr.linked hp hlive (Nat.mod_lt _ hpos)
      ((hr.keyEquals_iff he hkey).2 hlabel) ?_
    intro q y hy hylive hhit
    refine Table.live_unique hr.distinct hy hylive hp hlive ?_
    rw [hlabel]
    exact (hr.keyEquals_iff (mem_liveEntries.2 ⟨q, hy, hylive⟩) hkey).1 hhit

/-- A lookup of the key of an entry finds the entry. -/
theorem Refines.lookup_self (hr : Refines L t d) (hp : t.entries[p]? = some e)
    (hlive : e.mark = .live) : HashObj.lookup fmt h t e.key = some p := by
  have he := mem_liveEntries.2 ⟨p, hp, hlive⟩
  obtain ⟨y, hy⟩ := Option.isSome_iff_exists.1 (hr.label e he)
  rcases hr.lookup hy with ⟨-, hd⟩ | ⟨q, e', hq, he', hlive', hlabel, -⟩
  · have hsome := (hr.dict y e.value).2 ⟨e, he, hy, rfl⟩
    rw [hd] at hsome
    cases hsome
  · rw [hq, Table.live_unique hr.distinct he' hlive' hp hlive (hlabel.trans hy.symm)]

/-! ### Changes of a slot -/

variable [DecidableEq κ]

/-- An entry is replaced by one with the same key. -/
theorem Refines.touch (t' : HashObj) (e' : HashEntry) (hr : Refines L t d) (hp : t.entries[p]? = some e)
    (hlive : e.mark = .live) (hkey : e'.key = e.key) (hlabel : L.label e.key = some x)
    (hentries : t'.entries = t.entries.set p e') (hcount : t'.count = t.count) :
    Refines L t' (Function.update d x (some e'.value)) := by
  have hlive' := HashEntry.mark_of_key hkey hlive
  obtain ⟨rest, hold, hnew⟩ := Table.exists_live_set hp hlive hlive'
  have hnewt : t'.liveEntries.Perm (e' :: rest) := by rw [liveEntries, hentries]; exact hnew
  have hlen : t'.entries.length = t.entries.length := by rw [hentries, List.length_set]
  have hhome : home fmt h t.entries.length e' = home fmt h t.entries.length e := by
    rw [home, home, hkey]
  have hdistinct : ((e :: rest).map fun e => L.label e.key).Nodup :=
    (hold.map _).nodup_iff.1 hr.distinct
  refine ⟨hr.sized.replace hp hlive hlive' hentries hcount, ?_, ?_, ?_, ?_⟩
  · rw [hlen, hentries]
    refine hr.linked.set (by rw [hlive']; decide) fun _ => ?_
    rw [hhome]
    exact hr.linked p e hp hlive
  · rw [(hnewt.map _).nodup_iff, List.map_cons, hkey]
    exact hdistinct
  · intro y hy
    rcases List.mem_cons.1 (hnewt.mem_iff.1 hy) with rfl | hy
    · rw [hkey, hlabel]
      rfl
    · exact hr.label y (hold.mem_iff.2 (List.mem_cons_of_mem _ hy))
  · intro s v
    by_cases hs : s = x
    · subst hs
      rw [Function.update_self]
      constructor
      · intro hv
        exact ⟨e', hnewt.mem_iff.2 List.mem_cons_self, hkey ▸ hlabel, Option.some.inj hv⟩
      · rintro ⟨y, hy, hylabel, rfl⟩
        rcases List.mem_cons.1 (hnewt.mem_iff.1 hy) with rfl | hy
        · rfl
        · rw [List.map_cons, List.nodup_cons] at hdistinct
          exact absurd (List.mem_map.2 ⟨y, hy, hylabel.trans hlabel.symm⟩) hdistinct.1
    · rw [Function.update_of_ne hs, hr.dict s v]
      -- an entry with another label is one of the rest
      constructor
      · rintro ⟨y, hy, hylabel, hv⟩
        rcases List.mem_cons.1 (hold.mem_iff.1 hy) with rfl | hy
        · exact absurd (Option.some.inj (hylabel.symm.trans hlabel)) hs
        · exact ⟨y, hnewt.mem_iff.2 (List.mem_cons_of_mem _ hy), hylabel, hv⟩
      · rintro ⟨y, hy, hylabel, hv⟩
        rcases List.mem_cons.1 (hnewt.mem_iff.1 hy) with rfl | hy
        · rw [hkey] at hylabel
          exact absurd (Option.some.inj (hylabel.symm.trans hlabel)) hs
        · exact ⟨y, hold.mem_iff.2 (List.mem_cons_of_mem _ hy), hylabel, hv⟩

/-- An entry with a new label takes a slot without an entry. -/
theorem Refines.insert (t' : HashObj) (e' : HashEntry) (hr : Refines L t d) (hp : t.entries[p]? = some e)
    (hdead : e.mark ≠ .live) (hlive : e'.mark = .live) (hlabel : L.label e'.key = some x)
    (hnew : d x = none)
    (hwalk : ∃ n < t.entries.length, p = (home fmt h t.entries.length e' + n) % t.entries.length ∧
      Table.Clear HashEntry.mark t.entries (home fmt h t.entries.length e') n)
    (hentries : t'.entries = t.entries.set p e') (hcount : t'.count = t.count + 1) :
    Refines L t' (Function.update d x (some e'.value)) := by
  have hperm : t'.liveEntries.Perm (e' :: t.liveEntries) := by
    rw [liveEntries, hentries]
    exact Table.live_set_perm hp hdead hlive
  have hlen : t'.entries.length = t.entries.length := by rw [hentries, List.length_set]
  refine ⟨hr.sized.insert hp hdead hlive hentries hcount, ?_, ?_, ?_, ?_⟩
  · rw [hlen, hentries]
    exact hr.linked.set (by rw [hlive]; decide) fun _ => hwalk
  · rw [(hperm.map _).nodup_iff, List.map_cons, List.nodup_cons]
    refine ⟨fun hmem => ?_, hr.distinct⟩
    obtain ⟨y, hy, hylabel⟩ := List.mem_map.1 hmem
    have hsome := (hr.dict x y.value).2 ⟨y, hy, hylabel.trans hlabel, rfl⟩
    rw [hnew] at hsome
    cases hsome
  · intro y hy
    rcases List.mem_cons.1 (hperm.mem_iff.1 hy) with rfl | hy
    · rw [hlabel]
      rfl
    · exact hr.label y hy
  · intro s v
    by_cases hs : s = x
    · subst hs
      rw [Function.update_self]
      constructor
      · intro hv
        exact ⟨e', hperm.mem_iff.2 List.mem_cons_self, hlabel, Option.some.inj hv⟩
      · rintro ⟨y, hy, hylabel, rfl⟩
        rcases List.mem_cons.1 (hperm.mem_iff.1 hy) with rfl | hy
        · rfl
        · have hsome := (hr.dict s y.value).2 ⟨y, hy, hylabel, rfl⟩
          rw [hnew] at hsome
          cases hsome
    · rw [Function.update_of_ne hs, hr.dict s v]
      constructor
      · rintro ⟨y, hy, hylabel, hv⟩
        exact ⟨y, hperm.mem_iff.2 (List.mem_cons_of_mem _ hy), hylabel, hv⟩
      · rintro ⟨y, hy, hylabel, hv⟩
        rcases List.mem_cons.1 (hperm.mem_iff.1 hy) with rfl | hy
        · exact absurd (Option.some.inj (hylabel.symm.trans hlabel)) hs
        · exact ⟨y, hy, hylabel, hv⟩

/-- An entry becomes a tombstone. -/
theorem Refines.remove (t' : HashObj) (e' : HashEntry) (hr : Refines L t d) (hp : t.entries[p]? = some e)
    (hlive : e.mark = .live) (hlabel : L.label e.key = some x) (hdead : e'.mark = .dead)
    (hentries : t'.entries = t.entries.set p e') (hcount : t'.count = t.count - 1) :
    Refines L t' (Function.update d x none) := by
  have hperm : t.liveEntries.Perm (e :: t'.liveEntries) := by
    rw [liveEntries, liveEntries, hentries]
    exact Table.live_set_dead hp hlive (by rw [hdead]; decide)
  have hlen : t'.entries.length = t.entries.length := by rw [hentries, List.length_set]
  have hdistinct := (hperm.map fun e => L.label e.key).nodup_iff.1 hr.distinct
  rw [List.map_cons, List.nodup_cons] at hdistinct
  refine ⟨hr.sized.remove hp hlive (by rw [hdead]; decide) hentries hcount, ?_, hdistinct.2, ?_, ?_⟩
  · rw [hlen, hentries]
    refine hr.linked.set (by rw [hdead]; decide) fun hno => ?_
    rw [hdead] at hno
    cases hno
  · intro y hy
    exact hr.label y (hperm.mem_iff.2 (List.mem_cons_of_mem _ hy))
  · intro s v
    by_cases hs : s = x
    · subst hs
      rw [Function.update_self]
      constructor
      · intro hv
        cases hv
      · rintro ⟨y, hy, hylabel, rfl⟩
        exact absurd (List.mem_map.2 ⟨y, hy, hylabel.trans hlabel.symm⟩) hdistinct.1
    · rw [Function.update_of_ne hs, hr.dict s v]
      constructor
      · rintro ⟨y, hy, hylabel, hv⟩
        rcases List.mem_cons.1 (hperm.mem_iff.1 hy) with rfl | hy
        · exact absurd (Option.some.inj (hylabel.symm.trans hlabel)) hs
        · exact ⟨y, hy, hylabel, hv⟩
      · rintro ⟨y, hy, hylabel, hv⟩
        exact ⟨y, hperm.mem_iff.2 (List.mem_cons_of_mem _ hy), hylabel, hv⟩

omit [DecidableEq κ] in
/-- The growth before an insertion. -/
theorem Refines.prepared (hr : Refines L t d) (hm : Prepared fmt h t m) : Refines L m d where
  sized := hm.sized
  linked := by
    rcases hm.grown with heq | hl
    · rw [heq]
      exact hr.linked
    · exact hl
  distinct := (hm.perm.map _).nodup_iff.2 hr.distinct
  label e he := hr.label e (hm.perm.mem_iff.1 he)
  dict s v := by
    rw [hr.dict s v]
    simp only [hm.perm.mem_iff]

omit [DecidableEq κ] in
/-- The heap changes, but not the labels of the keys. -/
theorem Refines.steady {h' : Heap} {L' : Labels fmt h' κ} (hr : Refines L t d)
    (hcode : L'.code = L.code) (hsteady : ∀ e ∈ t.liveEntries, L'.label e.key = L.label e.key) :
    Refines L' t d where
  sized := hr.sized
  linked := by
    refine hr.linked.congr fun e he => ?_
    obtain ⟨y, hy⟩ := Option.isSome_iff_exists.1 (hr.label e he)
    rw [home, home, L.hash hy, L'.hash ((hsteady e he).trans hy), hcode]
  distinct := by
    rw [List.map_congr_left hsteady]
    exact hr.distinct
  label e he := by
    rw [hsteady e he]
    exact hr.label e he
  dict s v := by
    rw [hr.dict s v]
    constructor
    · rintro ⟨e, he, hlabel, hv⟩
      exact ⟨e, he, (hsteady e he).trans hlabel, hv⟩
    · rintro ⟨e, he, hlabel, hv⟩
      exact ⟨e, he, (hsteady e he).symm.trans hlabel, hv⟩

omit [DecidableEq κ] in
theorem Refines.empty (hentries : t.entries = []) (hcount : t.count = 0) :
    Refines L t fun _ => none := by
  have hlive : t.liveEntries = [] := by rw [liveEntries, hentries]; rfl
  refine ⟨⟨.inl hentries, by rw [hcount, hlive]; rfl⟩, ?_, by rw [hlive]; exact List.nodup_nil, ?_, ?_⟩
  · intro p e he
    rw [hentries] at he
    cases he
  · intro e he
    rw [hlive] at he
    cases he
  · intro s v
    simp [hlive]

/-! ### Calls -/

/-- A store ends, and the map has the value under the label.  A null key can be stored only if an
entry has its label already. -/
theorem Refines.exists_set? (hr : Refines L t d) (hnull : key ≠ .null ∨ (d x).isSome)
    (hkey : L.label key = some x) (value : Value) :
    ∃ t', set? fmt h t key value = some t' ∧ Refines L t' (Function.update d x (some value)) := by
  obtain ⟨m, t', hm, hset, hst⟩ := hr.sized.exists_set? fmt h key value
  refine ⟨t', hset, ?_⟩
  have hrm := hr.prepared hm
  have hlook := hrm.lookup hkey
  cases hst with
  | update p e hfound he hlive hequal =>
    rcases hlook with ⟨hnone, -⟩ | ⟨q, y, hq, hy, -, hylabel, -⟩
    · exact absurd (hfound.symm.trans hnone) (by simp)
    · obtain rfl := Option.some.inj (hfound.symm.trans hq)
      obtain rfl := Option.some.inj (he.symm.trans hy)
      exact hrm.touch _ { e with value } he hlive rfl hylabel rfl rfl
  | insert p e hfound he hdead hwalk =>
    rcases hlook with ⟨-, hnone⟩ | ⟨q, y, hq, -⟩
    · have hkey' : key ≠ .null := hnull.resolve_right (by simp [hnone])
      exact hrm.insert _ ⟨key, value, m.nextSequence + 1⟩ he hdead
        (HashEntry.mark_eq_live.2 hkey') hkey hnone hwalk rfl rfl
    · exact absurd (hfound.symm.trans hq) (by simp)

/-- A read returns the value of the map and leaves the map alone. -/
theorem Refines.getRaw (hr : Refines L t d) (hkey : L.label key = some x) :
    (HashObj.getRaw fmt h t key).2 = (d x).getD .null ∧
      Refines L (HashObj.getRaw fmt h t key).1 d := by
  rcases hr.lookup hkey with ⟨hnone, hd⟩ | ⟨p, e, hp, he, hlive, hlabel, hd⟩
  · rw [getRaw_none hnone, hd]
    exact ⟨rfl, hr⟩
  · rw [getRaw_some hp he, hd]
    refine ⟨rfl, ?_⟩
    dsimp only
    rw [touched]
    split_ifs
    · -- the entry moves to the end of the order
      have htouch := hr.touch { t with
          entries := t.entries.set p { e with sequence := t.nextSequence + 1 }
          nextSequence := t.nextSequence + 1 } { e with sequence := t.nextSequence + 1 } he hlive rfl hlabel rfl rfl
      rwa [← hd, Function.update_eq_self] at htouch
    · exact hr

omit [DecidableEq κ] in
theorem Refines.contains (hr : Refines L t d) (hkey : L.label key = some x) :
    HashObj.contains fmt h t key = (d x).isSome := by
  rcases hr.lookup hkey with ⟨hnone, hd⟩ | ⟨p, e, hp, -, -, -, hd⟩
  · rw [HashObj.contains, hnone, hd]
    rfl
  · rw [HashObj.contains, hp, hd]
    rfl

/-- A deletion takes the label out of the map. -/
theorem Refines.delete (hr : Refines L t d) (hkey : L.label key = some x) :
    (HashObj.delete fmt h t key).2 = (d x).isSome ∧
      Refines L (HashObj.delete fmt h t key).1 (Function.update d x none) := by
  rcases hr.lookup hkey with ⟨hnone, hd⟩ | ⟨p, e, hp, he, hlive, hlabel, hd⟩
  · rw [delete_none hnone, hd]
    refine ⟨rfl, ?_⟩
    rwa [← hd, Function.update_eq_self]
  · rw [delete_some hp, hd]
    exact ⟨rfl, hr.remove { t with
        entries := t.entries.set p { key := .null, value := .bool true, sequence := 0 }
        count := t.count - 1 } { key := .null, value := .bool true, sequence := 0 } he hlive hlabel rfl rfl rfl⟩

end HashObj

end Slp
