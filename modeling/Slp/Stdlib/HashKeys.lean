import Mathlib.Data.List.Find
import Slp.Object.Texts
import Slp.Vm.Stringify

/-!
# The keys of a new hash

`%()` and `hash` give the pairs of a new hash to `slp_vm_hash_set`, which stores a value under the
canonical text of its key; `ohash` and `ohasha` store it under the key as it is.  A lookup asks for
the canonical text.

* `HashMaker.make?`: the hash that is made of key-value objects;
* `KeysLaw`: a lookup of each key finds the value of the last pair with the same canonical key, and a
  store of each key updates an entry;
* `keysLaw_iff`: **the law holds exactly if each key has a canonical text, and the last pair that is
  stored under that text has the value of the last pair with the same canonical key.**

The strings that are looked up are in the heap: `slp_vm_copy_string` makes a string once.
-/

namespace Slp

namespace Heap

variable (C : CLib) (h : Heap)

/-- The key and the value of a key-value object. -/
def keyValue? : Value → Option (Value × Value)
  | .obj r => match h.get? r with
    | some (.keyValue key value) => some (key, value)
    | _ => none
  | _ => none

/-- `slp_vm_copy_string`, for a text of which there is a string already. -/
def copyString? (chars : Bytes) : Option Ref :=
  (h.map HeapCell.ref).find? fun r => match h.string? r with
    | some s => decide (s.chars = chars)
    | none => false

/-- The string that is the canonical key. -/
def canonicalRef? (key : Value) : Option Ref := (h.canonicalHashKey? C key).bind h.copyString?

/-- `slp_vm_hash_set` on a hash without policies, and whether the value was stored. -/
def vmHashSet? (t : HashObj) (key value : Value) : Option (HashObj × Bool) :=
  match h.canonicalRef? C key with
  | none => some (t, false)
  | some r => (HashObj.set? C.printf h t (.obj r) value).map fun t => (t, true)

/-- `slp_vm_hash_get` on a hash without policies. -/
def vmHashGet (t : HashObj) (key : Value) : HashObj × Value :=
  match h.canonicalRef? C key with
  | none => (t, .null)
  | some r => HashObj.get C.printf h t (.obj r)

/-- The texts before and after the first `=` of a string. -/
def splitPair? : Value → Option (Bytes × Bytes)
  | .obj r => (h.string? r).bind fun s =>
    let text := s.chars.takeWhile fun c => c ≠ 0
    if 61 ∈ text then
      let key := text.takeWhile fun c => c ≠ 61
      some (key, s.chars.drop (key.length + 1))
    else none
  | _ => none

/-- The loop of `native_hash`: key-value objects, strings with an equals sign, and keys each followed
by its value. -/
def nativeHash? : HashObj → List Value → Option HashObj
  | t, [] => some t
  | t, arg :: rest =>
    match h.keyValue? arg, h.splitPair? arg with
    | some (key, value), _ =>
      (h.vmHashSet? C t key (h.dereferenceValue value)).bind fun s => nativeHash? s.1 rest
    | none, some (key, value) =>
      (h.copyString? key).bind fun k => (h.copyString? value).bind fun v =>
        (h.vmHashSet? C t (.obj k) (.obj v)).bind fun s => nativeHash? s.1 rest
    | none, none =>
      match rest with
      | [] => some t
      | value :: rest => (h.vmHashSet? C t arg value).bind fun s => nativeHash? s.1 rest

/-- The loop of `builtin_ordered_hash`. -/
def orderedHash? : HashObj → List Value → Option HashObj
  | t, [] => some t
  | t, arg :: rest =>
    match h.keyValue? arg with
    | some (key, value) =>
      (HashObj.set? C.printf h t key (h.dereferenceValue value)).bind fun t => orderedHash? t rest
    | none => orderedHash? t rest

end Heap

/-- The functions that make a hash of pairs; `%()` is `hash`. -/
inductive HashMaker where
  | hash | ohash | ohasha
  deriving DecidableEq, Repr

/-- The hash that is made. -/
def HashMaker.make? (C : CLib) (h : Heap) (args : List Value) : HashMaker → Option HashObj
  | .hash => h.nativeHash? C {} args
  | .ohash => h.orderedHash? C { orderMode := 1 } args
  | .ohasha => h.orderedHash? C { orderMode := 2 } args

/-- The text that a pair is stored under: the canonical text, or the one of the key as it is. -/
def HashMaker.label (C : CLib) (h : Heap) : HashMaker → Value → Option Bytes
  | .hash => h.canonicalHashKey? C
  | _ => HashObj.keyRepr C.printf h

/-- The value of the last pair with a text. -/
def lastValue (label : Value → Option Bytes) (pairs : List (Value × Value)) (text : Bytes) :
    Option Value :=
  (pairs.reverse.find? fun p => label p.1 = some text).map Prod.snd

namespace Heap

variable (C : CLib) (h : Heap)

/-- The pairs that are given to a constructor, with the values that are stored. -/
def pairsOf (args : List Value) : List (Value × Value) :=
  (args.filterMap h.keyValue?).map fun p => (p.1, h.dereferenceValue p.2)

/-- A pair of a key that is not null and a value that is not null, and the string its key is looked
up with. -/
structure PairFits (p : Value × Value) : Prop where
  key : p.1 ≠ .null ∧ h.isCell p.1 = false
  value : p.2 ≠ .null ∧ h.isCell p.2 = false
  string : (h.canonicalHashKey? C p.1).isSome → (h.canonicalRef? C p.1).isSome

/-- What a new hash owes the keys it was made with, whichever of them were looked up before. -/
def KeysLaw (t : HashObj) (pairs : List (Value × Value)) : Prop :=
  ∀ p ∈ pairs, ∀ keys : List Value, (∀ key ∈ keys, key ∈ pairs.map Prod.fst) →
    let t' := keys.foldl (fun t key => (h.vmHashGet C t key).1) t
    (pairs.reverse.find? fun q => h.canonicalHashKey? C q.1 = h.canonicalHashKey? C p.1).map Prod.snd =
        some (h.vmHashGet C t' p.1).2 ∧
      ∀ value, h.isCell value = false → ∃ t'', h.vmHashSet? C t' p.1 value = some (t'', true) ∧
        t''.count = t'.count ∧ (h.vmHashGet C t'' p.1).2 = value

/-- The keys have a canonical text, and what is stored under it is what is looked for. -/
def KeysAgree (maker : HashMaker) (pairs : List (Value × Value)) : Prop :=
  ∀ p ∈ pairs, ∃ text, h.canonicalHashKey? C p.1 = some text ∧
    lastValue (maker.label C h) pairs text = lastValue (h.canonicalHashKey? C) pairs text

end Heap

/-! ### The last pair with a text -/

section Last

variable {label : Value → Option Bytes} {pairs : List (Value × Value)} {text : Bytes}

theorem lastValue_append (pairs : List (Value × Value)) (p : Value × Value) :
    lastValue label (pairs ++ [p]) = HashObj.putText (lastValue label pairs) (label p.1) p.2 := by
  funext x
  have hlast : lastValue label (pairs ++ [p]) x =
      if label p.1 = some x then some p.2 else lastValue label pairs x := by
    rw [lastValue, List.reverse_append, List.reverse_singleton, List.singleton_append,
      List.find?_cons]
    by_cases hp : label p.1 = some x
    · rw [if_pos hp, decide_eq_true hp]
      rfl
    · rw [if_neg hp, decide_eq_false hp]
      rfl
  rw [hlast]
  cases htext : label p.1 with
  | none => rfl
  | some y =>
    rw [HashObj.putText, Function.update_apply]
    by_cases hx : x = y
    · rw [hx, if_pos rfl, if_pos rfl]
    · rw [if_neg hx, if_neg fun heq => hx (Option.some.inj heq).symm]

theorem mem_of_lastValue {v : Value} (hlast : lastValue label pairs text = some v) :
    ∃ p ∈ pairs, label p.1 = some text ∧ p.2 = v := by
  obtain ⟨p, hp, rfl⟩ := Option.map_eq_some_iff.1 hlast
  exact ⟨p, List.mem_reverse.1 (List.mem_of_find?_eq_some hp),
    by simpa using List.find?_some hp, rfl⟩

theorem lastValue_congr {label' : Value → Option Bytes}
    (hsame : ∀ p ∈ pairs, label p.1 = label' p.1) : lastValue label pairs = lastValue label' pairs := by
  funext x
  rw [lastValue, lastValue, List.find?_congr fun p hp => ?_]
  rw [hsame p (List.mem_reverse.1 hp)]

end Last

namespace Heap

open HashObj

variable {C : CLib} {h : Heap} {t : HashObj} {d : Bytes → Option Value} {r : Ref}
  {key value : Value} {text : Bytes} {args : List Value} {pairs : List (Value × Value)}

/-! ### Lookups and stores of the machine -/

theorem string_of_copyString? (hr : h.copyString? text = some r) :
    ∃ s, h.get? r = some (.string s) ∧ s.chars = text := by
  have hfound := List.find?_some hr
  cases hs : h.string? r with
  | none =>
    rw [hs] at hfound
    cases hfound
  | some s =>
    rw [hs] at hfound
    refine ⟨s, ?_, of_decide_eq_true hfound⟩
    unfold string? at hs
    split at hs
    · rename_i s' hget
      obtain rfl := Option.some.inj hs
      exact hget
    · cases hs

/-- The string that a key is looked up with. -/
theorem exists_canonicalRef? (htext : h.canonicalHashKey? C key = some text)
    (hstring : (h.canonicalRef? C key).isSome) :
    ∃ r, h.canonicalRef? C key = some r ∧ h.isCell (.obj r) = false ∧
      keyRepr C.printf h (.obj r) = some text := by
  obtain ⟨r, hr⟩ := Option.isSome_iff_exists.1 hstring
  refine ⟨r, hr, ?_⟩
  rw [canonicalRef?, htext] at hr
  obtain ⟨s, hs, rfl⟩ := string_of_copyString? hr
  exact ⟨by rw [isCell_obj, hs], keyRepr_string hs⟩

theorem canonicalRef?_none (htext : h.canonicalHashKey? C key = none) :
    h.canonicalRef? C key = none := by
  rw [canonicalRef?, htext]
  rfl

/-- A lookup returns what is stored under the canonical text. -/
theorem vmHashGet_spec (ht : TextDict C.printf h t d) (htext : h.canonicalHashKey? C key = some text)
    (hstring : (h.canonicalRef? C key).isSome) :
    (h.vmHashGet C t key).2 = h.dereferenceValue ((d text).getD .null) ∧
      TextDict C.printf h (h.vmHashGet C t key).1 d := by
  obtain ⟨r, hr, hplain, hkey⟩ := exists_canonicalRef? htext hstring
  obtain ⟨hvalue, ht'⟩ := ht.getRaw hplain hkey
  rw [vmHashGet, hr]
  dsimp only
  refine ⟨?_, ht'⟩
  unfold HashObj.get
  rw [hvalue]

theorem vmHashGet_none (t : HashObj) (htext : h.canonicalHashKey? C key = none) :
    h.vmHashGet C t key = (t, .null) := by
  rw [vmHashGet, canonicalRef?_none htext]

/-- A store under a key with a canonical text. -/
theorem exists_vmHashSet? (ht : TextDict C.printf h t d)
    (htext : h.canonicalHashKey? C key = some text) (hstring : (h.canonicalRef? C key).isSome)
    (value : Value) :
    ∃ t', h.vmHashSet? C t key value = some (t', true) ∧
      TextDict C.printf h t' (Function.update d text (some value)) ∧
      ((d text).isSome → t'.count = t.count) := by
  obtain ⟨r, hr, hplain, hkey⟩ := exists_canonicalRef? htext hstring
  obtain ⟨t', hset, ht', hcount⟩ := ht.exists_set? hplain (by simp) value
  rw [hkey] at ht'
  refine ⟨t', ?_, ht', hcount text hkey⟩
  rw [vmHashSet?, hr]
  dsimp only
  rw [hset]
  rfl

/-- Lookups leave what is stored alone. -/
theorem textDict_lookups {keys : List Value} (ht : TextDict C.printf h t d)
    (hkeys : ∀ key ∈ keys, (h.canonicalHashKey? C key).isSome → (h.canonicalRef? C key).isSome) :
    TextDict C.printf h (keys.foldl (fun t key => (h.vmHashGet C t key).1) t) d := by
  induction keys generalizing t with
  | nil => exact ht
  | cons key keys ih =>
    refine ih ?_ fun k hk => hkeys k (List.mem_cons_of_mem _ hk)
    cases htext : h.canonicalHashKey? C key with
    | none =>
      dsimp only
      rw [vmHashGet_none t htext]
      exact ht
    | some text =>
      exact (vmHashGet_spec ht htext (hkeys key List.mem_cons_self (by rw [htext]; rfl))).2

/-! ### The loops of the constructors -/

/-- What a constructor does with a pair. -/
def storePair? (C : CLib) (h : Heap) (maker : HashMaker) (t : HashObj) (p : Value × Value) :
    Option HashObj :=
  match maker with
  | .hash => (h.vmHashSet? C t p.1 p.2).map Prod.fst
  | _ => HashObj.set? C.printf h t p.1 p.2

theorem pairsOf_cons {arg key value : Value} (harg : h.keyValue? arg = some (key, value)) :
    h.pairsOf (arg :: args) = (key, h.dereferenceValue value) :: h.pairsOf args := by
  rw [pairsOf, List.filterMap_cons, harg]
  rfl

theorem nativeHash?_eq (hargs : ∀ arg ∈ args, (h.keyValue? arg).isSome) (t : HashObj) :
    h.nativeHash? C t args = (h.pairsOf args).foldlM (h.storePair? C .hash) t := by
  induction args generalizing t with
  | nil =>
    rw [nativeHash?]
    rfl
  | cons arg args ih =>
    obtain ⟨⟨key, value⟩, harg⟩ := Option.isSome_iff_exists.1 (hargs arg List.mem_cons_self)
    rw [nativeHash?.eq_def, pairsOf_cons harg, List.foldlM_cons, storePair?]
    dsimp only
    rw [harg]
    dsimp only
    cases h.vmHashSet? C t key (h.dereferenceValue value) with
    | none => rfl
    | some s => exact ih (fun a ha => hargs a (List.mem_cons_of_mem _ ha)) s.1

theorem orderedHash?_eq (maker : HashMaker) (hmaker : maker ≠ .hash) (t : HashObj) :
    h.orderedHash? C t args = (h.pairsOf args).foldlM (h.storePair? C maker) t := by
  have hstore : h.storePair? C maker = fun t p => HashObj.set? C.printf h t p.1 p.2 := by
    funext t p
    cases maker with
    | hash => exact absurd rfl hmaker
    | ohash => rfl
    | ohasha => rfl
  rw [hstore]
  induction args generalizing t with
  | nil => rfl
  | cons arg args ih =>
    rw [orderedHash?]
    cases harg : h.keyValue? arg with
    | none =>
      rw [pairsOf, List.filterMap_cons, harg]
      exact ih t
    | some p =>
      rw [pairsOf_cons harg, List.foldlM_cons]
      cases hset : HashObj.set? C.printf h t p.1 (h.dereferenceValue p.2) with
      | none => simp [hset]
      | some t' =>
        simp only [hset]
        exact ih t'

/-- A pair is stored under its text. -/
theorem exists_storePair? {p : Value × Value} (maker : HashMaker) (ht : TextDict C.printf h t d)
    (hp : h.PairFits C p) :
    ∃ t', h.storePair? C maker t p = some t' ∧
      TextDict C.printf h t' (putText d (maker.label C h p.1) p.2) := by
  have hset : ∃ t', HashObj.set? C.printf h t p.1 p.2 = some t' ∧
      TextDict C.printf h t' (putText d (keyRepr C.printf h p.1) p.2) := by
    obtain ⟨t', hset, ht', -⟩ := ht.exists_set? hp.key.2 hp.key.1 p.2
    exact ⟨t', hset, ht'⟩
  cases maker with
  | hash =>
    cases htext : h.canonicalHashKey? C p.1 with
    | none =>
      refine ⟨t, ?_, ?_⟩
      · rw [storePair?, vmHashSet?, canonicalRef?_none htext]
        rfl
      · rw [HashMaker.label, htext]
        exact ht
    | some text =>
      obtain ⟨t', hset', ht', -⟩ :=
        exists_vmHashSet? ht htext (hp.string (by rw [htext]; rfl)) p.2
      refine ⟨t', ?_, ?_⟩
      · rw [storePair?, hset']
        rfl
      · rw [HashMaker.label, htext]
        exact ht'
  | ohash => exact hset
  | ohasha => exact hset

/-- After any list of pairs, the last pair with a text is found under it. -/
theorem exists_storePairs? (maker : HashMaker) {past : List (Value × Value)}
    (ht : TextDict C.printf h t (lastValue (maker.label C h) past))
    (hpairs : ∀ p ∈ pairs, h.PairFits C p) :
    ∃ t', pairs.foldlM (h.storePair? C maker) t = some t' ∧
      TextDict C.printf h t' (lastValue (maker.label C h) (past ++ pairs)) := by
  induction pairs generalizing t past with
  | nil => exact ⟨t, rfl, by rwa [List.append_nil]⟩
  | cons p pairs ih =>
    obtain ⟨mid, hstore, hmid⟩ := exists_storePair? maker ht (hpairs p List.mem_cons_self)
    rw [← lastValue_append] at hmid
    obtain ⟨t', hrest, ht'⟩ := ih hmid fun q hq => hpairs q (List.mem_cons_of_mem _ hq)
    refine ⟨t', ?_, ?_⟩
    · rw [List.foldlM_cons, hstore]
      exact hrest
    · rwa [List.append_assoc, List.singleton_append] at ht'

/-- The hash that a constructor makes of key-value objects. -/
theorem exists_make? (maker : HashMaker) (hargs : ∀ arg ∈ args, (h.keyValue? arg).isSome)
    (hfits : ∀ p ∈ h.pairsOf args, h.PairFits C p) :
    ∃ t, maker.make? C h args = some t ∧
      TextDict C.printf h t (lastValue (maker.label C h) (h.pairsOf args)) := by
  have hstart : ∀ mode : ℕ, TextDict C.printf h { orderMode := mode }
      (lastValue (maker.label C h) []) := fun _ => TextDict.empty rfl rfl
  cases maker with
  | hash =>
    obtain ⟨t, hmake, ht⟩ := exists_storePairs? .hash (hstart 0) hfits
    exact ⟨t, (nativeHash?_eq hargs _).trans hmake, ht⟩
  | ohash =>
    obtain ⟨t, hmake, ht⟩ := exists_storePairs? .ohash (hstart 1) hfits
    exact ⟨t, (orderedHash?_eq .ohash (by decide) _).trans hmake, ht⟩
  | ohasha =>
    obtain ⟨t, hmake, ht⟩ := exists_storePairs? .ohasha (hstart 2) hfits
    exact ⟨t, (orderedHash?_eq .ohasha (by decide) _).trans hmake, ht⟩

/-! ### The law -/

/-- The values of pairs are what they are read as. -/
theorem plain_of_lastValue (hfits : ∀ p ∈ pairs, h.PairFits C p) {v : Value}
    {label : Value → Option Bytes} (hlast : lastValue label pairs text = some v) :
    v ≠ .null ∧ h.dereferenceValue v = v := by
  obtain ⟨p, hp, -, rfl⟩ := mem_of_lastValue hlast
  exact ⟨(hfits p hp).value.1, dereferenceValue_of_not_cell (hfits p hp).value.2⟩

/-- A hash keeps the law if what is stored under each canonical text is the last value with it. -/
theorem keysLaw_of_agree {maker : HashMaker} (hfits : ∀ p ∈ pairs, h.PairFits C p)
    (ht : TextDict C.printf h t (lastValue (maker.label C h) pairs))
    (hagree : h.KeysAgree C maker pairs) : h.KeysLaw C t pairs := by
  intro p hp keys hkeys
  obtain ⟨text, htext, hsame⟩ := hagree p hp
  have hstring := (hfits p hp).string (by rw [htext]; rfl)
  -- the lookups before this one change nothing
  have hstrings : ∀ key ∈ keys,
      (h.canonicalHashKey? C key).isSome → (h.canonicalRef? C key).isSome := by
    intro key hkey
    obtain ⟨q, hq, rfl⟩ := List.mem_map.1 (hkeys key hkey)
    exact (hfits q hq).string
  have ht' := textDict_lookups ht hstrings
  have hlast : (lastValue (h.canonicalHashKey? C) pairs text).isSome := by
    rw [lastValue, Option.isSome_map, List.find?_isSome]
    exact ⟨p, List.mem_reverse.2 hp, decide_eq_true htext⟩
  obtain ⟨v, hv⟩ := Option.isSome_iff_exists.1 hlast
  obtain ⟨-, hderef⟩ := plain_of_lastValue hfits hv
  refine ⟨?_, fun value hvalue => ?_⟩
  · rw [(vmHashGet_spec ht' htext hstring).1, hsame, hv, Option.getD_some, hderef, htext]
    exact hv
  · obtain ⟨t'', hset, ht'', hcount⟩ := exists_vmHashSet? ht' htext hstring value
    refine ⟨t'', hset, hcount (by rw [hsame]; exact hlast), ?_⟩
    rw [(vmHashGet_spec ht'' htext hstring).1, Function.update_self, Option.getD_some,
      dereferenceValue_of_not_cell hvalue]

/-- If the lookups find the last values, then what is stored under each canonical text is it. -/
theorem keysAgree_of_law {maker : HashMaker} (hfits : ∀ p ∈ pairs, h.PairFits C p)
    (ht : TextDict C.printf h t (lastValue (maker.label C h) pairs))
    (hlaw : h.KeysLaw C t pairs) : h.KeysAgree C maker pairs := by
  intro p hp
  obtain ⟨hread, hwrite⟩ := hlaw p hp [] (by simp)
  rw [List.foldl_nil] at hread hwrite
  cases htext : h.canonicalHashKey? C p.1 with
  | none =>
    -- without a canonical text nothing is stored
    obtain ⟨t'', hset, -⟩ := hwrite .null rfl
    rw [vmHashSet?, canonicalRef?_none htext] at hset
    cases hset
  | some text =>
    refine ⟨text, rfl, ?_⟩
    have hstring := (hfits p hp).string (by rw [htext]; rfl)
    rw [(vmHashGet_spec ht htext hstring).1, htext] at hread
    change lastValue (h.canonicalHashKey? C) pairs text = _ at hread
    rw [hread]
    cases hstored : lastValue (maker.label C h) pairs text with
    | none =>
      rw [hstored] at hread
      exact absurd (dereferenceValue_of_not_cell rfl) (plain_of_lastValue hfits hread).1
    | some v => rw [Option.getD_some, (plain_of_lastValue hfits hstored).2]

/-- A new hash finds each of its keys, and updates its entry, exactly if the keys have canonical
texts and the last pair that is stored under each of them has the value of the last pair with that
canonical key. -/
theorem keysLaw_iff (C : CLib) (h : Heap) (maker : HashMaker) (args : List Value)
    (hargs : ∀ arg ∈ args, (h.keyValue? arg).isSome)
    (hfits : ∀ p ∈ h.pairsOf args, h.PairFits C p) :
    ∃ t, maker.make? C h args = some t ∧
      (h.KeysLaw C t (h.pairsOf args) ↔ h.KeysAgree C maker (h.pairsOf args)) := by
  obtain ⟨t, hmake, ht⟩ := exists_make? maker hargs hfits
  exact ⟨t, hmake, keysAgree_of_law hfits ht, keysLaw_of_agree hfits ht⟩

/-- Ints, longs, strings and booleans are found in every new hash. -/
theorem keysAgree_of_simple (maker : HashMaker) (hsimple : ∀ p ∈ pairs, h.SimpleKey p.1) :
    h.KeysAgree C maker pairs := by
  intro p hp
  have hsame : lastValue (maker.label C h) pairs = lastValue (h.canonicalHashKey? C) pairs := by
    refine lastValue_congr fun q hq => ?_
    cases maker with
    | hash => rfl
    | ohash => exact (canonicalHashKey?_eq_keyRepr (hsimple q hq)).symm
    | ohasha => exact (canonicalHashKey?_eq_keyRepr (hsimple q hq)).symm
  obtain ⟨text, htext⟩ := Option.isSome_iff_exists.1 (keyRepr_isSome C (hsimple p hp))
  refine ⟨text, ?_, congrFun hsame text⟩
  rw [canonicalHashKey?_eq_keyRepr (hsimple p hp), htext]

/-- An integer and the string of it are one key of an ordered hash. -/
theorem keysLaw_iff_numbers :
    let C : CLib := ⟨fun _ _ => [], fun _ => [], fun _ => none, fun _ => none, fun _ => 0⟩
    let h : Heap := [⟨0, false, .string ⟨ascii "1", 0⟩⟩, ⟨1, false, .keyValue (.num 1) (.num 5)⟩,
      ⟨2, false, .keyValue (.obj 0) (.num 6)⟩]
    ∃ t, HashMaker.ohash.make? C h [.obj 1, .obj 2] = some t ∧
      h.KeysLaw C t [(.num 1, .num 5), (.obj 0, .num 6)] := by
  intro C h
  have hfits : ∀ p ∈ h.pairsOf [.obj 1, .obj 2], h.PairFits C p := by
    intro p hp
    rcases List.mem_cons.1 hp with rfl | hp
    · exact ⟨by decide, by decide, fun _ => by decide⟩
    · obtain rfl := List.mem_singleton.1 hp
      exact ⟨by decide, by decide, fun _ => by decide⟩
  obtain ⟨t, hmake, hiff⟩ := keysLaw_iff C h .ohash [.obj 1, .obj 2] (by decide) hfits
  refine ⟨t, hmake, hiff.2 fun p hp => ⟨ascii "1", ?_, by decide⟩⟩
  rcases List.mem_cons.1 hp with rfl | hp
  · decide
  · obtain rfl := List.mem_singleton.1 hp
    decide

/-- An array is not found in the ordered hash that was made with it. -/
theorem not_keysLaw_array :
    let C : CLib := ⟨fun _ _ => [], fun _ => [], fun _ => none, fun _ => none, fun _ => 0⟩
    let h : Heap := [⟨0, false, .array { elements := [.num 1], count := 1 }⟩,
      ⟨1, false, .keyValue (.obj 0) (.num 5)⟩, ⟨2, false, .string ⟨ascii "@(1)", 0⟩⟩]
    ∃ t, HashMaker.ohash.make? C h [.obj 1] = some t ∧
      ¬h.KeysLaw C t [(.obj 0, .num 5)] := by
  intro C h
  have hfits : ∀ p ∈ h.pairsOf [.obj 1], h.PairFits C p := by
    intro p hp
    obtain rfl := List.mem_singleton.1 hp
    exact ⟨by decide, by decide, fun _ => by decide⟩
  obtain ⟨t, hmake, ht⟩ := exists_make? .ohash (by decide) hfits
  refine ⟨t, hmake, fun hlaw => ?_⟩
  obtain ⟨text, htext, hsame⟩ := keysAgree_of_law hfits ht hlaw _ List.mem_cons_self
  have hcanonical : h.canonicalHashKey? C (.obj 0) = some (ascii "@(1)") := by decide
  obtain rfl := Option.some.inj (hcanonical.symm.trans htext)
  revert hsame
  decide

end Heap

end Slp
