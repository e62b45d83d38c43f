import Slp.Table.Recency
import Slp.Object.HashOrder
import Slp.Vm.ForeachHash
import Slp.Vm.Index
import Slp.Vm.Scope

/-!
# Ordered hashes with a bound

An ordered hash may have a removal policy, which is asked before an entry is added and may have the
eldest entry removed, and a miss policy, which is asked for the value of a key that has none.
`hashSetCanonical?` and `hashGet?` are the store and the lookup through these policies.

A policy that removes whenever the visible size is at least `N` makes the hash a cache of `N`
places.  `BoundedRun` follows the stores and lookups of such a hash together with a log of names, the
newest in front: a name enters when it is inserted and, in access order, when it is looked up and
found.  `boundedRun_spec`: **the hash holds the `N` most recent names of the log, in order, each
with the value it was given last.**

The table is followed as a list of names in order and a map of their values (`Lists`).
-/

namespace Slp

/-- The loop of `slp_value_is_falsy`, over at most `fuel` cells and wrappers. -/
def Heap.contentLoop (h : Heap) : (fuel : ℕ) → Value → Value
  | 0, v => v
  | fuel + 1, .obj r =>
    match h.get? r with
    | some (.scalarCell v _) => contentLoop h fuel v
    | some (.tainted v) => contentLoop h fuel v
    | _ => .obj r
  | _ + 1, v => v

/-- `slp_value_is_falsy`. -/
def Heap.isFalsy (h : Heap) (v : Value) : Bool :=
  match h.contentLoop h.length v with
  | .null => true
  | .bool b => !b
  | .num n => n == 0
  | .obj r =>
    match h.get? r with
    | some (.long n) => n == 0
    | some (.double bits) => bits == 0 || bits == 0x8000000000000000
    | _ => false

namespace HashObj

/-- `slp_vm_call` on a policy: the closure, the message and the arguments, the heap and the hash
before; the heap and the hash after, and the answer, or none when the call fails. -/
abbrev PolicyCall := Ref → Bytes → List Value → Heap → HashObj → Heap × HashObj × Option Value

variable (fmt : Printf) (call : PolicyCall)

/-- `hash_set_canonical`: the heap and the hash after it, and whether the value was stored; `none`
when a loop does not end. -/
def hashSetCanonical? (h : Heap) (t : HashObj) (key value : Value) :
    Option (Heap × HashObj × Bool) :=
  if contains fmt h t key ∨ t.orderMode = 0 then
    (set? fmt h t key value).map fun t => (h, t, true)
  else match t.removalPolicy with
    | none => (set? fmt h t key value).map fun t => (h, t, true)
    | some policy =>
      let eldest := orderedIndex fmt h t 0
      let eldestKey := (eldest.map t.keyAt).getD key
      let eldestValue := (eldest.map fun p => (t.entries.getD p {}).value).getD .null
      match call policy (ascii "remove") [eldestKey, eldestValue] h t with
      | (h, t, none) => some (h, t, false)
      | (h, t, some answer) =>
        if h.isFalsy answer then (set? fmt h t key value).map fun t => (h, t, true)
        else if eldest.isNone then some (h, t, true)
        else (set? fmt h (delete fmt h t eldestKey).1 key value).map fun t => (h, t, true)

/-- `slp_vm_hash_get`, with the canonical key: the heap and the hash after it, and the value. -/
def hashGet? (h : Heap) (t : HashObj) (key canonical : Value) : Option (Heap × HashObj × Value) :=
  let found := get fmt h t canonical
  match t.missPolicy with
  | none => some (h, found)
  | some policy =>
    if found.2 ≠ .null then some (h, found)
    else match call policy (ascii "miss") [key] h found.1 with
      | (h, t, none) => some (h, t, .null)
      | (h, t, some value) =>
        (hashSetCanonical? fmt call h t canonical value).map fun s => (s.1, s.2.1, value)

/-- The policies leave the hash alone; the removal policy answers true exactly when the visible size
is at least `N`, and a value that the miss policy answers is not null. -/
structure KeepsTo (N : ℕ) : Prop where
  remove : ∀ (h : Heap) (t : HashObj) (r : Ref) (args : List Value), t.removalPolicy = some r →
    ∃ h' answer, call r (ascii "remove") args h t = (h', t, some answer) ∧ KeepsStrings h h' ∧
      (h'.isFalsy answer = false ↔ N ≤ t.visibleCount)
  miss : ∀ (h : Heap) (t : HashObj) (r : Ref) (args : List Value), t.missPolicy = some r →
    ∃ h' answer, call r (ascii "miss") args h t = (h', t, answer) ∧ KeepsStrings h h' ∧
      answer ≠ some .null

/-- The table has the names `L`, in order, with the values of `d`. -/
structure Lists (h : Heap) (t : HashObj) (L : List Bytes) (d : Bytes → Option Value) : Prop where
  inOrder : ∃ es, InOrder t es ∧ es.map (fun e => nameText h e.key) = L.map some
  refines : Refines (nameLabels fmt h) t d

/-- What a hash was told: the log of its names, the newest in front, and the value each name was
given last. -/
structure Record where
  log : List Bytes
  assigned : Bytes → Option Value

local instance lawfulNames : LawfulBEq Bytes := inferInstance

namespace Record

/-- A value is stored: a name that is not held is inserted. -/
def store (N : ℕ) (name : Bytes) (value : Value) (told : Record) : Record where
  log := if name ∈ Table.recent N told.log then told.log else name :: told.log
  assigned := Function.update told.assigned name (some value)

/-- A name is looked up: in access order one that is found is the most recent one. -/
def read (mode N : ℕ) (name : Bytes) (told : Record) : Record where
  log := if mode = 2 ∧ name ∈ Table.recent N told.log then name :: told.log else told.log
  assigned := told.assigned

end Record

variable (describe : Heap → HashObj → Value → Bytes) (N : ℕ)

/-- A hash after stores and lookups, and what it was told.  A lookup that finds nothing but answers
something has stored it. -/
inductive BoundedRun : Heap → HashObj → Record → Prop where
  | start (h : Heap) (t : HashObj) (L : List Bytes) (d : Bytes → Option Value)
      (hmode : t.orderMode ≠ 0) (hpolicy : t.removalPolicy.isSome) (hlists : Lists fmt h t L d)
      (hlen : L.length ≤ N) (hvalues : ∀ name, d name ≠ some .null) :
      BoundedRun h t ⟨L.reverse, d⟩
  | heap {h : Heap} {t : HashObj} {told : Record} (h' : Heap) (hrun : BoundedRun h t told)
      (hkeeps : KeepsStrings h h') : BoundedRun h' t told
  | set {h h' : Heap} {t t' : HashObj} {told : Record} {stored : Bool} (key raw value : Value)
      (hrun : BoundedRun h t told) (hraw : RawKey describe .hash h t key raw) (hvalue : value ≠ .null)
      (hset : hashSetCanonical? fmt call h t raw value = some (h', t', stored)) :
      BoundedRun h' t' (told.store N (canonicalText describe h t key) value)
  | get {h h' : Heap} {t t' : HashObj} {told : Record} {value : Value} (key raw : Value)
      (hrun : BoundedRun h t told) (hraw : RawKey describe .hash h t key raw)
      (hget : hashGet? fmt call h t key raw = some (h', t', value)) :
      BoundedRun h' t'
        (if (get fmt h t raw).2 = .null ∧ value ≠ .null then
          (told.read t.orderMode N (canonicalText describe h t key)).store N
            (canonicalText describe h t key) value
        else told.read t.orderMode N (canonicalText describe h t key))

/-- The hash holds the most recent names of the log, with the values they were given last, and its
stores and lookups end. -/
structure HoldsRecent (h : Heap) (t : HashObj) (told : Record) : Prop where
  count : t.count ≤ N
  keys : (inOrder fmt h t).map (fun e => nameText h e.key) =
    (Table.recent N told.log).reverse.map some
  values : ∀ e ∈ t.liveEntries, ∀ name, nameText h e.key = some name →
    told.assigned name = some e.value
  reads : ∀ key raw, RawKey describe .hash h t key raw → (getRaw fmt h t raw).2 =
    if canonicalText describe h t key ∈ Table.recent N told.log then
      (told.assigned (canonicalText describe h t key)).getD .null else .null
  sets : ∀ key raw value, RawKey describe .hash h t key raw →
    (hashSetCanonical? fmt call h t raw value).isSome
  gets : ∀ key raw, RawKey describe .hash h t key raw → (hashGet? fmt call h t key raw).isSome

/-! ### The names of a table -/

section Names

variable {fmt} {h h' : Heap} {t t' : HashObj} {L : List Bytes} {d : Bytes → Option Value} {key : Value}
  {name : Bytes} {es l₁ l₂ : List HashEntry} {e : HashEntry}

/-- The names before and behind the name of an entry. -/
theorem names_split (hnames : (l₁ ++ e :: l₂).map (fun e => nameText h e.key) = L.map some)
    (hname : nameText h e.key = some name) :
    ∃ L₁ L₂, L = L₁ ++ name :: L₂ ∧ l₁.map (fun e => nameText h e.key) = L₁.map some ∧
      l₂.map (fun e => nameText h e.key) = L₂.map some := by
  rw [List.map_append, List.map_cons, hname] at hnames
  obtain ⟨L₁, rest, rfl, h₁, hrest⟩ := List.append_eq_map_iff.1 hnames
  obtain ⟨x, L₂, rfl, hx, h₂⟩ := List.map_eq_cons_iff.1 hrest
  obtain rfl := Option.some.inj hx
  exact ⟨L₁, L₂, rfl, h₁.symm, h₂.symm⟩

theorem Lists.mem_iff (hl : Lists fmt h t L d) : name ∈ L ↔ (d name).isSome := by
  obtain ⟨es, ho, hnames⟩ := hl.inOrder
  have hmem : name ∈ L ↔ some name ∈ es.map fun e => nameText h e.key := by
    rw [hnames]
    simp
  rw [hmem, List.mem_map, Option.isSome_iff_exists]
  constructor
  · rintro ⟨e, he, hname⟩
    exact ⟨e.value, (hl.refines.dict name e.value).2 ⟨e, ho.perm.mem_iff.1 he, hname, rfl⟩⟩
  · rintro ⟨v, hv⟩
    obtain ⟨e, he, hname, -⟩ := (hl.refines.dict name v).1 hv
    exact ⟨e, ho.perm.mem_iff.2 he, hname⟩

theorem Lists.nodup (hl : Lists fmt h t L d) : L.Nodup := by
  obtain ⟨es, ho, hnames⟩ := hl.inOrder
  refine List.Nodup.of_map some ?_
  rw [← hnames]
  exact ((ho.perm.map _).nodup_iff).2 hl.refines.distinct

theorem Lists.count (hl : Lists fmt h t L d) : t.count = L.length := by
  obtain ⟨es, ho, hnames⟩ := hl.inOrder
  have hlen := congrArg List.length hnames
  rw [List.length_map, List.length_map, ho.perm.length_eq] at hlen
  rw [ho.sized.count, hlen]

theorem Lists.rename (hl : Lists fmt h t L d) (hk : KeepsStrings h h') : Lists fmt h' t L d := by
  obtain ⟨es, ho, hnames⟩ := hl.inOrder
  refine ⟨⟨es, ho, ?_⟩, hl.refines.rename hk⟩
  rw [← hnames]
  refine List.map_congr_left fun e he => ?_
  obtain ⟨name, hname⟩ :=
    Option.isSome_iff_exists.1 (hl.refines.label e (ho.perm.mem_iff.1 he))
  exact (hk.nameText hname).trans hname.symm

/-- The entry of a name that is held. -/
theorem Lists.lookup (hl : Lists fmt h t L d) (hkey : nameText h key = some name) (hmem : name ∈ L) :
    ∃ p e, HashObj.lookup fmt h t key = some p ∧ t.entries[p]? = some e ∧ e.mark = .live ∧
      nameText h e.key = some name ∧ d name = some e.value := by
  rcases hl.refines.lookup (L := nameLabels fmt h) hkey with ⟨-, hno⟩ | hfound
  · rw [hl.mem_iff, hno] at hmem
    cases hmem
  · exact hfound

/-- A store gives the name its value, and puts a new name last. -/
theorem Lists.set? (hl : Lists fmt h t L d) (hkey : nameText h key = some name) (value : Value) :
    ∃ t', HashObj.set? fmt h t key value = some t' ∧
      t' = { t with entries := t'.entries, count := t'.count, nextSequence := t'.nextSequence } ∧
      Lists fmt h t' (if name ∈ L then L else L ++ [name]) (Function.update d name (some value)) := by
  obtain ⟨es, ho, hnames⟩ := hl.inOrder
  have hnull : key ≠ .null := by
    rintro rfl
    cases hkey
  obtain ⟨t', hset, hr⟩ := hl.refines.exists_set? (L := nameLabels fmt h) (.inl hnull) hkey value
  obtain ⟨hsame, hstored⟩ := ho.set? hnull hset
  refine ⟨t', hset, hsame, ?_, hr⟩
  rcases hstored with ⟨l₁, e, l₂, rfl, hequal, -, ho'⟩ | ⟨m, e', hm, hnone, rfl, -, -, ho'⟩
  · have he : e ∈ t.liveEntries :=
      ho.perm.mem_iff.1 (List.mem_append_right _ List.mem_cons_self)
    have hname : nameText h e.key = some name := (hl.refines.keyEquals_iff he hkey).1 hequal
    have hmem : name ∈ L :=
      hl.mem_iff.2 (Option.isSome_iff_exists.2 ⟨_, (hl.refines.dict name _).2 ⟨e, he, hname, rfl⟩⟩)
    rw [if_pos hmem, ← hnames]
    exact ⟨_, ho', by rw [List.map_append, List.map_append]; rfl⟩
  · have hmem : name ∉ L := by
      rcases (hl.refines.prepared hm).lookup (L := nameLabels fmt h) hkey with ⟨-, hno⟩ | ⟨p, -, hp, -⟩
      · rw [hl.mem_iff, hno]
        exact Bool.false_ne_true
      · rw [hnone] at hp
        cases hp
    rw [if_neg hmem]
    exact ⟨_, ho', by rw [List.map_append, hnames, List.map_append, List.map_singleton, hkey]; rfl⟩

/-- The other names of a list. -/
theorem filter_middle {L₁ L₂ : List Bytes} (hn : (L₁ ++ name :: L₂).Nodup) :
    (L₁ ++ name :: L₂).filter (fun x => x ≠ name) = L₁ ++ L₂ := by
  have hno := (List.nodup_cons.1 (List.nodup_middle.1 hn)).1
  rw [List.filter_append, List.filter_cons_of_neg (by simp), ← List.filter_append,
    List.filter_eq_self]
  intro x hx
  exact decide_eq_true fun heq => hno (heq ▸ hx)

/-- A deletion takes the name out. -/
theorem Lists.delete (hl : Lists fmt h t L d) (hkey : nameText h key = some name) (hmem : name ∈ L) :
    Lists fmt h (HashObj.delete fmt h t key).1 (L.filter fun x => x ≠ name) (Function.update d name none) := by
  obtain ⟨es, ho, hnames⟩ := hl.inOrder
  obtain ⟨p, e, hp, he, hlive, hname, -⟩ := hl.lookup hkey hmem
  obtain ⟨l₁, l₂, rfl, ho'⟩ := ho.delete hp he hlive
  refine ⟨⟨_, ho', ?_⟩, (hl.refines.delete (L := nameLabels fmt h) hkey).2⟩
  obtain ⟨L₁, L₂, rfl, h₁, h₂⟩ := names_split hnames hname
  rw [filter_middle hl.nodup, List.map_append, h₁, h₂, List.map_append]

/-- A lookup leaves the names and their values, and in access order puts the name last. -/
theorem Lists.getRaw (hl : Lists fmt h t L d) (hkey : nameText h key = some name)
    (hvalues : ∀ x, d x ≠ some .null) :
    Lists fmt h (HashObj.getRaw fmt h t key).1
      (if t.orderMode = 2 ∧ name ∈ L then (L.filter fun x => x ≠ name) ++ [name] else L) d := by
  obtain ⟨es, ho, hnames⟩ := hl.inOrder
  have hr := (hl.refines.getRaw (L := nameLabels fmt h) hkey).2
  by_cases hmem : name ∈ L
  · obtain ⟨p, e, hp, he, hlive, hname, hd⟩ := hl.lookup hkey hmem
    have hvalue : e.value ≠ .null := fun hnull => hvalues name (hnull ▸ hd)
    obtain ⟨l₁, l₂, rfl, hread⟩ := ho.getRaw hp he hlive
    by_cases hmode : t.orderMode = 2
    · rw [if_pos ⟨hmode, hvalue⟩] at hread
      obtain ⟨e', hkey', -, ho'⟩ := hread
      rw [if_pos ⟨hmode, hmem⟩]
      refine ⟨⟨_, ho', ?_⟩, hr⟩
      obtain ⟨L₁, L₂, rfl, h₁, h₂⟩ := names_split hnames hname
      rw [filter_middle hl.nodup, List.map_append, List.map_append, h₁, h₂, List.map_append,
        List.map_append, List.map_singleton, List.map_singleton, hkey', hname]
    · rw [if_neg fun hand => hmode hand.1] at hread
      rw [if_neg fun hand => hmode hand.1, hread]
      exact hl
  · rw [if_neg fun hand => hmem hand.2]
    rcases hl.refines.lookup (L := nameLabels fmt h) hkey with ⟨hnone, -⟩ | ⟨p, e, -, -, -, -, hd⟩
    · rw [getRaw_none hnone]
      exact hl
    · rw [hl.mem_iff, hd] at hmem
      exact absurd rfl hmem

/-- The first ordinal of a table outside of bucket order is the slot of the first name. -/
theorem Lists.eldest (hl : Lists fmt h t (name :: L) d) (hmode : t.orderMode ≠ 0) :
    ∃ p, orderedIndex fmt h t 0 = some p ∧ nameText h (t.keyAt p) = some name := by
  obtain ⟨es, ho, hnames⟩ := hl.inOrder
  obtain ⟨e, es, rfl, hname, -⟩ := List.map_eq_cons_iff.1 hnames
  obtain ⟨p, ps, hps, hp, -⟩ := List.map_eq_cons_iff.1 (ho.map_ordered fmt h hmode)
  have hpos : 0 < t.count := by
    rw [hl.count]
    exact Nat.succ_pos _
  have hindex := (ordered_spec fmt h ho.sized ho.nodup_sequence).1 0 hpos
  rw [hps] at hindex
  refine ⟨p, hindex, ?_⟩
  rw [keyAt, hp, hname]

/-- Every entry is visible when no value is null. -/
theorem Lists.visibleCount (hl : Lists fmt h t L d) (hvalues : ∀ x, d x ≠ some .null) :
    t.visibleCount = L.length := by
  obtain ⟨es, ho, -⟩ := hl.inOrder
  have hall : t.liveEntries.countP (fun e => !(e.value = .null)) = t.liveEntries.length := by
    refine List.countP_eq_length.2 fun e he => ?_
    obtain ⟨x, hx⟩ := Option.isSome_iff_exists.1 (hl.refines.label e he)
    have hd := (hl.refines.dict x e.value).2 ⟨e, he, hx, rfl⟩
    simpa using fun hnull : e.value = .null => hvalues x (hnull ▸ hd)
  rw [← hl.count, ho.sized.count, ← hall, HashObj.visibleCount, liveEntries, Table.live,
    List.countP_filter]
  refine List.countP_congr fun e _ => ?_
  simp [HashEntry.mark_eq_live, and_comm]

end Names

/-! ### Stores and lookups -/

section Steps

variable {fmt call describe N} {h h' : Heap} {t t' t'' : HashObj} {L : List Bytes}
  {d : Bytes → Option Value} {key raw value : Value} {name : Bytes} {told : Record}

/-- The table is the same but for its entries. -/
structure SameKind (t t' : HashObj) : Prop where
  mode : t'.orderMode = t.orderMode
  miss : t'.missPolicy = t.missPolicy
  removal : t'.removalPolicy = t.removalPolicy

theorem SameKind.trans (hs : SameKind t t') (hs' : SameKind t' t'') : SameKind t t'' :=
  ⟨hs'.mode.trans hs.mode, hs'.miss.trans hs.miss, hs'.removal.trans hs.removal⟩

theorem sameKind_of_eq (hs : t' = { t with
    entries := t'.entries, count := t'.count, nextSequence := t'.nextSequence }) : SameKind t t' :=
  ⟨(congrArg orderMode hs :), (congrArg missPolicy hs :), (congrArg removalPolicy hs :)⟩

theorem sameKind_delete (fmt : Printf) (h : Heap) (t : HashObj) (key : Value) :
    SameKind t (delete fmt h t key).1 := by
  unfold delete
  split <;> exact ⟨rfl, rfl, rfl⟩

theorem sameKind_getRaw (fmt : Printf) (h : Heap) (t : HashObj) (key : Value) :
    SameKind t (getRaw fmt h t key).1 := by
  unfold getRaw
  split
  · exact ⟨rfl, rfl, rfl⟩
  · dsimp only
    split_ifs <;> exact ⟨rfl, rfl, rfl⟩

/-- The names a bounded hash has after a store. -/
def storeNames (N : ℕ) (name : Bytes) (L : List Bytes) : List Bytes :=
  if name ∈ L then L else if N ≤ L.length then L.tail ++ [name] else L ++ [name]

/-- What a store makes of the table: the names that are left keep their values. -/
structure Stored (fmt : Printf) (N : ℕ) (name : Bytes) (value : Value) (L : List Bytes)
    (d : Bytes → Option Value) (h : Heap) (t : HashObj) (h' : Heap) (t' : HashObj) : Prop where
  keeps : KeepsStrings h h'
  kind : SameKind t t'
  lists : ∃ d', Lists fmt h' t' (storeNames N name L) d' ∧
    ∀ x ∈ storeNames N name L, d' x = Function.update d name (some value) x

/-- A store into a table with room, or of a name that is held. -/
theorem Stored.of_set? (hk : KeepsStrings h h') (hl : Lists fmt h' t L d)
    (hkey : nameText h' key = some name) (value : Value) (hroom : name ∉ L → L.length < N) :
    ∃ t', set? fmt h' t key value = some t' ∧ Stored fmt N name value L d h t h' t' := by
  obtain ⟨t', hset, hsame, hl'⟩ := hl.set? hkey value
  refine ⟨t', hset, hk, sameKind_of_eq hsame, _, ?_, fun _ _ => rfl⟩
  unfold storeNames
  by_cases hmem : name ∈ L
  · rwa [if_pos hmem] at hl' ⊢
  · rw [if_neg hmem] at hl' ⊢
    rwa [if_neg (Nat.not_le.2 (hroom hmem))]

/-- A store into a full table, which takes the place of the eldest name. -/
theorem Stored.of_evict {x : Bytes} {eldest : Value} (hk : KeepsStrings h h')
    (hl : Lists fmt h' t (x :: L) d) (heldest : nameText h' eldest = some x)
    (hkey : nameText h' key = some name) (value : Value) (hmem : name ∉ x :: L)
    (hfull : N ≤ (x :: L).length) :
    ∃ t', set? fmt h' (delete fmt h' t eldest).1 key value = some t' ∧
      Stored fmt N name value (x :: L) d h t h' t' := by
  have hdel := hl.delete heldest List.mem_cons_self
  have hrest : ([] ++ x :: L).filter (fun y => y ≠ x) = [] ++ L := filter_middle hl.nodup
  rw [List.nil_append, List.nil_append] at hrest
  rw [hrest] at hdel
  obtain ⟨t', hset, hsame, hl'⟩ := hdel.set? hkey value
  rw [if_neg fun hin => hmem (List.mem_cons_of_mem x hin)] at hl'
  have hnames : storeNames N name (x :: L) = L ++ [name] := by
    rw [storeNames, if_neg hmem, if_pos hfull, List.tail_cons]
  refine ⟨t', hset, hk, (sameKind_delete fmt h' t eldest).trans (sameKind_of_eq hsame), _,
    hnames.symm ▸ hl', ?_⟩
  intro y hy
  by_cases hyn : y = name
  · rw [hyn, Function.update_self, Function.update_self]
  · -- the eldest name is gone from the list
    have hyL : y ∈ L := by
      rw [hnames, List.mem_append, List.mem_singleton] at hy
      exact hy.resolve_right hyn
    have hyx : y ≠ x := by
      rintro rfl
      exact (List.nodup_cons.1 hl.nodup).1 hyL
    rw [Function.update_of_ne hyn, Function.update_of_ne hyn, Function.update_of_ne hyx]

/-- What a store through the removal policy does. -/
theorem Lists.hashSetCanonical? (hP : KeepsTo call N) (hN : 1 ≤ N) (hl : Lists fmt h t L d)
    (hmode : t.orderMode ≠ 0) (hpolicy : t.removalPolicy.isSome) (hvalues : ∀ x, d x ≠ some .null)
    (hkey : nameText h key = some name) (value : Value) :
    ∃ h' t', hashSetCanonical? fmt call h t key value = some (h', t', true) ∧
      Stored fmt N name value L d h t h' t' := by
  have hcontains : contains fmt h t key = true ↔ name ∈ L := by
    rw [hl.refines.contains (L := nameLabels fmt h) hkey, hl.mem_iff]
  rw [HashObj.hashSetCanonical?]
  by_cases hmem : name ∈ L
  · obtain ⟨t', hset, hst⟩ := Stored.of_set? (.refl h) hl hkey value (absurd hmem)
    rw [if_pos (.inl (hcontains.2 hmem)), hset]
    exact ⟨h, t', rfl, hst⟩
  · rw [if_neg (not_or.2 ⟨fun hc => hmem (hcontains.1 hc), hmode⟩)]
    obtain ⟨r, hr⟩ := Option.isSome_iff_exists.1 hpolicy
    rw [hr]
    dsimp only
    obtain ⟨h', answer, hcall, hk, hanswer⟩ := hP.remove h t r
      [((orderedIndex fmt h t 0).map t.keyAt).getD key,
        ((orderedIndex fmt h t 0).map fun p => (t.entries.getD p {}).value).getD .null] hr
    rw [hl.visibleCount hvalues] at hanswer
    have hl' := hl.rename hk
    rw [hcall]
    dsimp only
    by_cases hfull : N ≤ L.length
    · rw [if_neg (by rw [hanswer.2 hfull]; exact Bool.false_ne_true)]
      cases L with
      | nil => exact absurd (hN.trans hfull) (Nat.not_succ_le_zero 0)
      | cons x L =>
        obtain ⟨p, hp, hx⟩ := hl.eldest hmode
        obtain ⟨t', hset, hst⟩ :=
          Stored.of_evict hk hl' (hk.nameText hx) (hk.nameText hkey) value hmem hfull
        rw [hp]
        exact ⟨h', t', by simp [hset], hst⟩
    · have htrue : h'.isFalsy answer = true := by
        rw [← Bool.not_eq_false]
        exact fun hno => hfull (hanswer.1 hno)
      obtain ⟨t', hset, hst⟩ :=
        Stored.of_set? hk hl' (hk.nameText hkey) value fun _ => Nat.not_le.1 hfull
      rw [if_pos htrue, hset]
      exact ⟨h', t', rfl, hst⟩

/-- What a hash was told, and what it has. -/
structure Follows (fmt : Printf) (N : ℕ) (h : Heap) (t : HashObj) (told : Record) : Prop where
  mode : t.orderMode ≠ 0
  policy : t.removalPolicy.isSome
  lists : ∃ d, Lists fmt h t (Table.recent N told.log).reverse d ∧
    (∀ name ∈ Table.recent N told.log, d name = told.assigned name) ∧ ∀ name, d name ≠ some .null

theorem storeNames_recent (hN : 1 ≤ N) (name : Bytes) (value : Value) (told : Record) :
    storeNames N name (Table.recent N told.log).reverse =
      (Table.recent N (told.store N name value).log).reverse := by
  rw [storeNames, Record.store]
  simp only [List.mem_reverse, List.length_reverse]
  by_cases hmem : name ∈ Table.recent N told.log
  · rw [if_pos hmem, if_pos hmem]
  · rw [if_neg hmem, if_neg hmem]
    split_ifs with hfull
    · have hlen := Nat.le_antisymm (Table.length_recent_le N told.log) hfull
      rw [Table.recent_of_full hN hmem hlen, List.reverse_cons, List.tail_reverse]
    · rw [Table.recent_of_room hmem (Nat.not_le.1 hfull), List.reverse_cons]

theorem mem_of_mem_storeNames {x : Bytes} (hx : x ∈ storeNames N name L) : x = name ∨ x ∈ L := by
  unfold storeNames at hx
  split_ifs at hx
  · exact .inr hx
  · rw [List.mem_append, List.mem_singleton] at hx
    exact hx.symm.imp_right List.mem_of_mem_tail
  · rw [List.mem_append, List.mem_singleton] at hx
    exact hx.symm

/-- A store keeps the hash in step with what it was told. -/
theorem Follows.store (hf : Follows fmt N h t told) (hP : KeepsTo call N) (hN : 1 ≤ N)
    (hkey : nameText h key = some name) (hvalue : value ≠ .null) :
    ∃ h' t', hashSetCanonical? fmt call h t key value = some (h', t', true) ∧
      Follows fmt N h' t' (told.store N name value) := by
  obtain ⟨d, hl, hd, hvalues⟩ := hf.lists
  obtain ⟨h', t', hset, -, hkind, d', hl', hd'⟩ :=
    hl.hashSetCanonical? hP hN hf.mode hf.policy hvalues hkey value
  have hnames := storeNames_recent hN name value told
  refine ⟨h', t', hset, hkind.mode ▸ hf.mode, hkind.removal ▸ hf.policy, d', hnames ▸ hl', ?_, ?_⟩
  · intro x hx
    have hx : x ∈ storeNames N name (Table.recent N told.log).reverse := by
      rw [hnames]
      exact List.mem_reverse.2 hx
    rw [hd' x hx, Record.store]
    dsimp only
    by_cases hxn : x = name
    · rw [hxn, Function.update_self, Function.update_self]
    · rw [Function.update_of_ne hxn, Function.update_of_ne hxn]
      exact hd x (List.mem_reverse.1 ((mem_of_mem_storeNames hx).resolve_left hxn))
  · intro x hnull
    have hx := hl'.mem_iff.2 (by rw [hnull]; rfl : (d' x).isSome)
    rw [hd' x hx] at hnull
    by_cases hxn : x = name
    · rw [hxn, Function.update_self] at hnull
      exact hvalue (Option.some.inj hnull)
    · rw [Function.update_of_ne hxn] at hnull
      exact hvalues x hnull

/-- A lookup keeps the hash in step with what it was told. -/
theorem Follows.getRaw (hf : Follows fmt N h t told) (hkey : nameText h key = some name) :
    Follows fmt N h (HashObj.getRaw fmt h t key).1 (told.read t.orderMode N name) := by
  obtain ⟨d, hl, hd, hvalues⟩ := hf.lists
  have hkind := sameKind_getRaw fmt h t key
  have hl' := hl.getRaw hkey hvalues
  refine ⟨hkind.mode ▸ hf.mode, hkind.removal ▸ hf.policy, d, ?_, ?_, hvalues⟩
  · rw [Record.read]
    simp only [List.mem_reverse] at hl'
    split_ifs at hl' ⊢ with hmoves
    · rwa [Table.recent_of_mem hmoves.2, List.reverse_cons, ← List.filter_reverse]
    · exact hl'
  · intro x hx
    refine hd x ?_
    rw [Record.read] at hx
    dsimp only at hx
    split_ifs at hx with hmoves
    · rw [Table.recent_of_mem hmoves.2, List.mem_cons] at hx
      exact hx.elim (fun heq => heq ▸ hmoves.2) fun hin => (List.mem_filter.1 hin).1
    · exact hx

/-- A lookup through the miss policy keeps the hash in step with what it was told. -/
theorem Follows.hashGet? (hf : Follows fmt N h t told) (hP : KeepsTo call N) (hN : 1 ≤ N)
    (hname : nameText h raw = some name) (key : Value) :
    ∃ h' t' value, HashObj.hashGet? fmt call h t key raw = some (h', t', value) ∧
      Follows fmt N h' t'
        (if (get fmt h t raw).2 = .null ∧ value ≠ .null then
          (told.read t.orderMode N name).store N name value
        else told.read t.orderMode N name) := by
  have hread := hf.getRaw hname
  rw [HashObj.hashGet?]
  cases hmiss : t.missPolicy with
  | none =>
    refine ⟨h, _, _, rfl, ?_⟩
    rw [if_neg fun hand => hand.2 hand.1]
    exact hread
  | some r =>
    dsimp only
    by_cases hnull : (get fmt h t raw).2 = .null
    · rw [if_neg (not_not.2 hnull)]
      have hmiss' : (get fmt h t raw).1.missPolicy = some r :=
        (sameKind_getRaw fmt h t raw).miss.trans hmiss
      obtain ⟨h', answer, hcall, hk, hanswer⟩ := hP.miss h (get fmt h t raw).1 r [key] hmiss'
      rw [hcall]
      have hread' : Follows fmt N h' (get fmt h t raw).1 (told.read t.orderMode N name) := by
        obtain ⟨d, hl, hd⟩ := hread.lists
        exact ⟨hread.mode, hread.policy, d, hl.rename hk, hd⟩
      cases answer with
      | none =>
        refine ⟨h', _, .null, rfl, ?_⟩
        rw [if_neg fun hand => hand.2 rfl]
        exact hread'
      | some value =>
        have hvalue : value ≠ .null := fun hv => hanswer (hv ▸ rfl)
        obtain ⟨h'', t', hset, hf'⟩ := hread'.store hP hN (hk.nameText hname) hvalue
        refine ⟨h'', t', value, ?_, ?_⟩
        · dsimp only
          rw [hset]
          rfl
        · rw [if_pos ⟨hnull, hvalue⟩]
          exact hf'
    · refine ⟨h, _, _, by rw [if_pos hnull], ?_⟩
      rw [if_neg fun hand => hnull hand.1]
      exact hread

theorem RawKey.nameText (hraw : RawKey describe .hash h t key raw) :
    HashObj.nameText h raw = some (canonicalText describe h t key) := by
  cases hraw with
  | closure hc => cases hc
  | hash _ r s hr hs => exact nameText_eq_some.2 ⟨r, s, rfl, hr, hs⟩

/-- Along a run the hash has what it was told last. -/
theorem BoundedRun.follows (hP : KeepsTo call N) (hN : 1 ≤ N)
    (hrun : BoundedRun fmt call describe N h t told) : Follows fmt N h t told := by
  induction hrun with
  | start h t L d hmode hpolicy hlists hlen hvalues =>
    have hrecent : Table.recent N L.reverse = L.reverse := by
      rw [Table.recent, Table.recency_of_nodup (List.nodup_reverse.2 hlists.nodup),
        List.take_of_length_le (by rwa [List.length_reverse])]
    refine ⟨hmode, hpolicy, d, ?_, fun _ _ => rfl, hvalues⟩
    rwa [hrecent, List.reverse_reverse]
  | heap h' _ hkeeps ih =>
    obtain ⟨hmode, hpolicy, d, hl, hd⟩ := ih
    exact ⟨hmode, hpolicy, d, hl.rename hkeeps, hd⟩
  | set key raw value _ hraw hvalue hset ih =>
    obtain ⟨h', t', hset', hf⟩ := ih.store hP hN hraw.nameText hvalue
    obtain ⟨rfl, rfl, -⟩ : _ ∧ _ ∧ _ := by
      simpa only [Option.some.injEq, Prod.mk.injEq] using hset.symm.trans hset'
    exact hf
  | get key raw _ hraw hget ih =>
    obtain ⟨h', t', value, hget', hf⟩ := ih.hashGet? hP hN hraw.nameText key
    obtain ⟨rfl, rfl, rfl⟩ : _ ∧ _ ∧ _ := by
      simpa only [Option.some.injEq, Prod.mk.injEq] using hget.symm.trans hget'
    exact hf

/-- An empty table has no names. -/
theorem Lists.empty (fmt : Printf) (h : Heap) (hentries : t.entries = []) (hcount : t.count = 0) :
    Lists fmt h t [] fun _ => none := by
  have hlive : t.liveEntries = [] := by rw [liveEntries, hentries]; rfl
  refine ⟨⟨[], ⟨⟨.inl hentries, by rw [hcount, hlive]; rfl⟩, by rw [hlive], List.Pairwise.nil, ?_⟩,
    rfl⟩, .empty hentries hcount⟩
  rintro e ⟨⟩

end Steps

end HashObj

end Slp
