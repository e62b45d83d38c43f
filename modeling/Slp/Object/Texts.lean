import Slp.Object.Cells
import Slp.Object.Labels

/-!
# The entries with a text

A table may have keys without a text: arrays, closures, and what is tainted of these.  Such keys
never equal one with a text, and two of them may be equal and hash differently, so that they have no
label (`Labels`).  The entries whose keys have a text are a map all the same (`TextDict`), whatever
keys are stored next to them.
-/

namespace Slp

namespace HashObj

variable {fmt : Printf} {h : Heap} {t t' m : HashObj} {d : Bytes → Option Value}
  {key value : Value} {x : Bytes} {p : ℕ} {e e' : HashEntry} {r : Ref} {s : StringObj}

/-- A value is stored under a text; without a text nothing changes. -/
def putText (d : Bytes → Option Value) (text : Option Bytes) (value : Value) :
    Bytes → Option Value :=
  match text with
  | some x => Function.update d x (some value)
  | none => d

/-- The entries whose keys have a text are the map. -/
structure TextDict (fmt : Printf) (h : Heap) (t : HashObj) (d : Bytes → Option Value) : Prop where
  sized : Sized t
  linked : Table.Linked HashEntry.mark t.entries (home fmt h t.entries.length)
  distinct : (t.liveEntries.filterMap fun e => keyRepr fmt h e.key).Nodup
  plain : ∀ e ∈ t.liveEntries, h.isCell e.key = false
  dict : ∀ x v, d x = some v ↔ ∃ e ∈ t.liveEntries, keyRepr fmt h e.key = some x ∧ e.value = v

/-! ### Texts of keys -/

theorem string?_eq_some : h.string? r = some s ↔ h.get? r = some (.string s) := by
  unfold Heap.string?
  split
  · next hr => rw [hr]; simp
  · next hno => exact iff_of_false (by rintro ⟨⟩) (hno s)

/-- A string is its own key text. -/
theorem keyRepr_string (hr : h.get? r = some (.string s)) : keyRepr fmt h (.obj r) = some s.chars := by
  have hcell : h.isCell (.obj r) = false := by rw [Heap.isCell_obj, hr]
  have hplain : ∀ v, h.get? r ≠ some (.tainted v) := by
    intro v hv
    rw [hr] at hv
    cases hv
  unfold keyRepr
  rw [Heap.dereferenceValue_of_not_cell hcell, Heap.unwrapTaint_of_not_tainted hplain]
  dsimp only
  rw [hr]

/-- Keys that are equal have the same text, or none. -/
theorem keyRepr_of_keyEquals {k k' : Value} (hk : h.isCell k = false) (hk' : h.isCell k' = false)
    (heq : keyEquals fmt h k k') : keyRepr fmt h k = keyRepr fmt h k' := by
  unfold keyEquals at heq
  split at heq
  · rename_i l r hl hr
    rw [hl, hr, beq_iff_eq.1 heq]
  · have hsame : h.unwrapTaint k = h.unwrapTaint k' := beq_iff_eq.1 heq
    unfold keyRepr
    rw [Heap.dereferenceValue_of_not_cell hk, Heap.dereferenceValue_of_not_cell hk', hsame]

theorem keyEquals_of_keyRepr {k k' : Value} (hk : keyRepr fmt h k = some x)
    (hk' : keyRepr fmt h k' = some x) : keyEquals fmt h k k' := by
  unfold keyEquals
  rw [hk, hk']
  exact beq_self_eq_true x

theorem hashValue_of_keyRepr (hkey : keyRepr fmt h key = some x) :
    hashValue fmt h key = hashString x := by
  unfold hashValue
  rw [hkey]

/-- An entry without the text that is asked for does not matter. -/
theorem exists_text_cons {entries : List HashEntry} (hne : keyRepr fmt h e.key ≠ some x) :
    (∃ y ∈ e :: entries, keyRepr fmt h y.key = some x ∧ y.value = value) ↔
      ∃ y ∈ entries, keyRepr fmt h y.key = some x ∧ y.value = value := by
  constructor
  · rintro ⟨y, hy, hytext, hv⟩
    rcases List.mem_cons.1 hy with rfl | hy
    · exact absurd hytext hne
    · exact ⟨y, hy, hytext, hv⟩
  · rintro ⟨y, hy, hytext, hv⟩
    exact ⟨y, List.mem_cons_of_mem _ hy, hytext, hv⟩

/-- The map of the entries `e :: rest`, where the rest has the map `d` but for the text of `e`. -/
theorem putText_eq_iff {rest : List HashEntry}
    (hrest : ∀ s v, keyRepr fmt h e.key ≠ some s →
      (d s = some v ↔ ∃ y ∈ rest, keyRepr fmt h y.key = some s ∧ y.value = v))
    (hdistinct : ((e :: rest).filterMap fun e => keyRepr fmt h e.key).Nodup) (s : Bytes) (v : Value) :
    putText d (keyRepr fmt h e.key) e.value s = some v ↔
      ∃ y ∈ e :: rest, keyRepr fmt h y.key = some s ∧ y.value = v := by
  cases htext : keyRepr fmt h e.key with
  | none =>
    have hne : keyRepr fmt h e.key ≠ some s := by simp [htext]
    rw [putText, exists_text_cons hne]
    exact hrest s v hne
  | some x =>
    rw [putText]
    by_cases hs : s = x
    · subst hs
      rw [Function.update_self]
      constructor
      · intro hv
        exact ⟨e, List.mem_cons_self, htext, Option.some.inj hv⟩
      · rintro ⟨y, hy, hytext, rfl⟩
        rcases List.mem_cons.1 hy with rfl | hy
        · rfl
        · rw [List.filterMap_cons, htext, List.nodup_cons] at hdistinct
          exact absurd (List.mem_filterMap.2 ⟨y, hy, hytext⟩) hdistinct.1
    · have hne : keyRepr fmt h e.key ≠ some s := by
        rw [htext]
        exact fun heq => hs (Option.some.inj heq).symm
      rw [Function.update_of_ne hs, exists_text_cons hne]
      exact hrest s v hne

/-! ### Changes of a slot -/

namespace TextDict

theorem empty (hentries : t.entries = []) (hcount : t.count = 0) :
    TextDict fmt h t fun _ => none := by
  have hlive : t.liveEntries = [] := by rw [liveEntries, hentries]; rfl
  refine ⟨⟨.inl hentries, by rw [hcount, hlive]; rfl⟩, ?_, by rw [hlive]; exact List.nodup_nil, ?_, ?_⟩
  · intro p e he
    rw [hentries] at he
    cases he
  · intro e he
    rw [hlive] at he
    cases he
  · intro s v
    simp [hlive]

/-- A lookup finds an entry with the text, if there is one. -/
theorem lookup (ht : TextDict fmt h t d) (hplain : h.isCell key = false)
    (hkey : keyRepr fmt h key = some x) :
    (HashObj.lookup fmt h t key = none ∧ d x = none) ∨
      ∃ p e, HashObj.lookup fmt h t key = some p ∧ t.entries[p]? = some e ∧ e.mark = .live ∧
        keyRepr fmt h e.key = some x ∧ d x = some e.value := by
  rcases ht.sized.capacity with hnil | ⟨k, hk⟩
  · refine .inl ⟨lookup_empty hnil key, ?_⟩
    cases hd : d x with
    | none => rfl
    | some v =>
      obtain ⟨e, he, -⟩ := (ht.dict x v).1 hd
      rw [liveEntries, hnil] at he
      cases he
  rw [lookup_eq fmt h hk]
  cases hs : Table.search HashEntry.mark (fun e => keyEquals fmt h e.key key) t.entries
      t.entries.length ((hashValue fmt h key).toNat % t.entries.length) with
  | none =>
    refine .inl ⟨rfl, ?_⟩
    cases hd : d x with
    | none => rfl
    | some v =>
      -- the entry is linked to its home, so that the search passes it
      obtain ⟨e, he, htext, -⟩ := (ht.dict x v).1 hd
      obtain ⟨p, hp, hlive⟩ := mem_liveEntries.1 he
      obtain ⟨n, hn, rfl, hclear⟩ := ht.linked p e hp hlive
      have hhome : home fmt h t.entries.length e =
          (hashValue fmt h key).toNat % t.entries.length := by
        rw [home, hashValue_of_keyRepr htext, hashValue_of_keyRepr hkey]
      rw [hhome] at hp hclear
      have hpos : 0 < t.entries.length := by
        rw [hk]
        exact Nat.two_pow_pos _
      have hfound : ∃ q, Table.search HashEntry.mark (fun e => keyEquals fmt h e.key key) t.entries
          t.entries.length ((hashValue fmt h key).toNat % t.entries.length) = some q :=
        Table.exists_search (Nat.mod_lt _ hpos) hn hp hlive (keyEquals_of_keyRepr htext hkey) hclear
      obtain ⟨q, hq⟩ := hfound
      rw [hs] at hq
      cases hq
  | some p =>
    obtain ⟨e, he, hlive, hhit⟩ := Table.search_some hs
    have hmem := mem_liveEntries.2 ⟨p, he, hlive⟩
    have htext := (keyRepr_of_keyEquals (ht.plain e hmem) hplain hhit).trans hkey
    exact .inr ⟨p, e, rfl, he, hlive, htext, (ht.dict x e.value).2 ⟨e, hmem, htext, rfl⟩⟩

/-- An entry is replaced by one with the same key. -/
theorem replace (t' : HashObj) (e' : HashEntry) (ht : TextDict fmt h t d)
    (hp : t.entries[p]? = some e) (hlive : e.mark = .live) (hkey : e'.key = e.key)
    (hentries : t'.entries = t.entries.set p e') (hcount : t'.count = t.count) :
    TextDict fmt h t' (putText d (keyRepr fmt h e.key) e'.value) := by
  have hlive' := HashEntry.mark_of_key hkey hlive
  obtain ⟨rest, hold, hnew⟩ := Table.exists_live_set hp hlive hlive'
  have holdt : t.liveEntries.Perm (e :: rest) := hold
  have hnewt : t'.liveEntries.Perm (e' :: rest) := by rw [liveEntries, hentries]; exact hnew
  have hlen : t'.entries.length = t.entries.length := by rw [hentries, List.length_set]
  have hhome : home fmt h t.entries.length e' = home fmt h t.entries.length e := by
    rw [home, home, hkey]
  have hdistinct := (holdt.filterMap fun e => keyRepr fmt h e.key).nodup_iff.1 ht.distinct
  have hplain : ∀ y ∈ e :: rest, h.isCell y.key = false :=
    fun y hy => ht.plain y (holdt.mem_iff.2 hy)
  refine ⟨ht.sized.replace hp hlive hlive' hentries hcount, ?_, ?_, ?_, ?_⟩
  · rw [hlen, hentries]
    refine ht.linked.set (by rw [hlive']; decide) fun _ => ?_
    rw [hhome]
    exact ht.linked p e hp hlive
  · rw [(hnewt.filterMap _).nodup_iff]
    rw [List.filterMap_cons] at hdistinct ⊢
    rwa [hkey]
  · intro y hy
    rcases List.mem_cons.1 (hnewt.mem_iff.1 hy) with rfl | hy
    · rw [hkey]
      exact hplain e List.mem_cons_self
    · exact hplain y (List.mem_cons_of_mem _ hy)
  · intro s v
    simp only [hnewt.mem_iff]
    rw [← hkey]
    refine putText_eq_iff (fun s v hne => ?_) (by rwa [List.filterMap_cons, hkey]) s v
    -- an entry with another text is one of the rest
    rw [ht.dict s v]
    simp only [holdt.mem_iff]
    exact exists_text_cons (hkey ▸ hne)

/-- An entry with a new text, or without a text, takes a slot without an entry. -/
theorem insert (t' : HashObj) (e' : HashEntry) (ht : TextDict fmt h t d)
    (hp : t.entries[p]? = some e) (hdead : e.mark ≠ .live) (hlive : e'.mark = .live)
    (hplain : h.isCell e'.key = false)
    (hnew : ∀ x, keyRepr fmt h e'.key = some x → d x = none)
    (hwalk : ∃ n < t.entries.length, p = (home fmt h t.entries.length e' + n) % t.entries.length ∧
      Table.Clear HashEntry.mark t.entries (home fmt h t.entries.length e') n)
    (hentries : t'.entries = t.entries.set p e') (hcount : t'.count = t.count + 1) :
    TextDict fmt h t' (putText d (keyRepr fmt h e'.key) e'.value) := by
  have hperm : t'.liveEntries.Perm (e' :: t.liveEntries) := by
    rw [liveEntries, hentries]
    exact Table.live_set_perm hp hdead hlive
  have hlen : t'.entries.length = t.entries.length := by rw [hentries, List.length_set]
  have hdistinct : ((e' :: t.liveEntries).filterMap fun e => keyRepr fmt h e.key).Nodup := by
    rw [List.filterMap_cons]
    cases htext : keyRepr fmt h e'.key with
    | none => exact ht.distinct
    | some x =>
      refine List.nodup_cons.2 ⟨fun hmem => ?_, ht.distinct⟩
      obtain ⟨y, hy, hytext⟩ := List.mem_filterMap.1 hmem
      have hsome := (ht.dict x y.value).2 ⟨y, hy, hytext, rfl⟩
      rw [hnew x htext] at hsome
      cases hsome
  refine ⟨ht.sized.insert hp hdead hlive hentries hcount, ?_, ?_, ?_, ?_⟩
  · rw [hlen, hentries]
    exact ht.linked.set (by rw [hlive]; decide) fun _ => hwalk
  · exact (hperm.filterMap _).nodup_iff.2 hdistinct
  · intro y hy
    rcases List.mem_cons.1 (hperm.mem_iff.1 hy) with rfl | hy
    · exact hplain
    · exact ht.plain y hy
  · intro s v
    simp only [hperm.mem_iff]
    exact putText_eq_iff (fun s v _ => ht.dict s v) hdistinct s v

/-- The growth before an insertion. -/
theorem prepared (ht : TextDict fmt h t d) (hm : Prepared fmt h t m) : TextDict fmt h m d where
  sized := hm.sized
  linked := by
    rcases hm.grown with heq | hl
    · rw [heq]
      exact ht.linked
    · exact hl
  distinct := (hm.perm.filterMap _).nodup_iff.2 ht.distinct
  plain e he := ht.plain e (hm.perm.mem_iff.1 he)
  dict s v := by
    rw [ht.dict s v]
    simp only [hm.perm.mem_iff]

/-! ### Calls -/

/-- A store ends, and the map has the value under the text; a text that is there already gets no
second entry. -/
theorem exists_set? (ht : TextDict fmt h t d) (hplain : h.isCell key = false) (hnull : key ≠ .null)
    (value : Value) :
    ∃ t', set? fmt h t key value = some t' ∧
      TextDict fmt h t' (putText d (keyRepr fmt h key) value) ∧
      ∀ x, keyRepr fmt h key = some x → (d x).isSome → t'.count = t.count := by
  obtain ⟨m, t', hm, hset, hst⟩ := ht.sized.exists_set? fmt h key value
  refine ⟨t', hset, ?_⟩
  have hcount : m.count = t.count := by rw [hm.same]
  have htm := ht.prepared hm
  cases hst with
  | update p e hfound he hlive hequal =>
    have htext := keyRepr_of_keyEquals (htm.plain e (mem_liveEntries.2 ⟨p, he, hlive⟩)) hplain hequal
    rw [← htext]
    exact ⟨htm.replace _ { e with value } he hlive rfl rfl rfl, fun _ _ _ => hcount⟩
  | insert p e hfound he hdead hwalk =>
    have hnew : ∀ x, keyRepr fmt h key = some x → d x = none := by
      intro x hx
      rcases htm.lookup hplain hx with ⟨-, hd⟩ | ⟨q, y, hq, -⟩
      · exact hd
      · rw [hfound] at hq
        cases hq
    refine ⟨htm.insert _ ⟨key, value, m.nextSequence + 1⟩ he hdead (HashEntry.mark_eq_live.2 hnull)
      hplain hnew hwalk rfl rfl, fun x hx hsome => ?_⟩
    rw [hnew x hx] at hsome
    cases hsome

/-- A read returns the value of the map and leaves the map and the count alone. -/
theorem getRaw (ht : TextDict fmt h t d) (hplain : h.isCell key = false)
    (hkey : keyRepr fmt h key = some x) :
    (HashObj.getRaw fmt h t key).2 = (d x).getD .null ∧
      TextDict fmt h (HashObj.getRaw fmt h t key).1 d := by
  rcases ht.lookup hplain hkey with ⟨hnone, hd⟩ | ⟨p, e, hp, he, hlive, htext, hd⟩
  · rw [getRaw_none hnone, hd]
    exact ⟨rfl, ht⟩
  · rw [getRaw_some hp he, hd]
    refine ⟨rfl, ?_⟩
    dsimp only
    rw [touched]
    split_ifs
    · -- the entry moves to the end of the order
      have htouch := ht.replace { t with
          entries := t.entries.set p { e with sequence := t.nextSequence + 1 }
          nextSequence := t.nextSequence + 1 } { e with sequence := t.nextSequence + 1 } he hlive
          rfl rfl rfl
      rw [htext, putText] at htouch
      dsimp only at htouch
      rwa [← hd, Function.update_eq_self] at htouch
    · exact ht

end TextDict

end HashObj

end Slp
