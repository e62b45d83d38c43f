import Slp.Object.Texts
import Slp.Vm.Call

/-!
# Scopes

The scopes of a frame and of a closure are hash tables whose keys are names, that is, strings.
Their labels are the bytes of the names (`nameLabels`), which no change of the heap touches, so that
a table that is a map stays one whatever is allocated or assigned (`Refines.rename`).

`set_eq_of_set?` takes what is known of `slp_obj_hash_set` with its loops watched to the function
itself, and `storeNamed_refines` follows the loop that binds the named arguments of a call.
-/

namespace Slp

namespace HashObj

/-! ### Insertions -/

section Insertions

variable {fmt : Printf} {h : Heap} {t t' : HashObj} {entries new : List HashEntry} {key value : Value}
  {fuel idx p : ℕ}

theorem growProbe_eq_of_growProbe? (hp : growProbe? entries fuel idx = some p) :
    growProbe entries fuel idx = p := by
  induction fuel generalizing idx with
  | zero => cases hp
  | succ fuel ih =>
    rw [growProbe?] at hp
    rw [growProbe]
    split_ifs at hp ⊢
    · exact Option.some.inj hp
    · exact ih hp

/-- The copy of `hash_grow`, slot by slot. -/
theorem foldl_eq_of_foldlM_put? {capacity : ℕ} (old : List HashEntry)
    (hput : old.foldlM (put? fmt h capacity) entries = some new) :
    old.foldl (fun new e => if e.key = .null then new
      else new.set (growProbe new capacity ((hashValue fmt h e.key).toNat &&& (capacity - 1))) e)
      entries = new := by
  induction old generalizing entries with
  | nil => exact Option.some.inj hput
  | cons e old ih =>
    rw [List.foldlM_cons] at hput
    obtain ⟨mid, hmid, hput⟩ := Option.bind_eq_some_iff.1 hput
    rw [List.foldl_cons]
    have hstep : (if e.key = .null then entries else entries.set
        (growProbe entries capacity ((hashValue fmt h e.key).toNat &&& (capacity - 1))) e) = mid := by
      rw [put?] at hmid
      split_ifs at hmid ⊢
      · exact Option.some.inj hmid
      · obtain ⟨p, hp, rfl⟩ := Option.map_eq_some_iff.1 hmid
        rw [growProbe_eq_of_growProbe? hp]
    rw [hstep]
    exact ih hput

theorem grow_eq_of_grow? (hg : grow? fmt h t = some t') : grow fmt h t = t' := by
  obtain ⟨entries, hfold, rfl⟩ := Option.map_eq_some_iff.1 hg
  rw [grow, ← grownCapacity, foldl_eq_of_foldlM_put? t.entries hfold]

theorem setLoop_eq_of_setLoop? (hs : setLoop? fmt h key value fuel t = some t') :
    setLoop fmt h key value fuel t = t' := by
  induction fuel generalizing t with
  | zero => cases hs
  | succ fuel ih =>
    rw [setLoop?] at hs
    obtain ⟨m, hm, hs⟩ := Option.bind_eq_some_iff.1 hs
    obtain ⟨u, hu, hm⟩ := Option.bind_eq_some_iff.1 hm
    have hu' : (if t.count + 1 > t.entries.length * 3 / 4 then grow fmt h t else t) = u := by
      split_ifs at hu ⊢
      · exact grow_eq_of_grow? hu
      · exact Option.some.inj hu
    have hm' : (if u.entries.length = 0 then grow fmt h u else u) = m := by
      split_ifs at hm ⊢
      · exact grow_eq_of_grow? hm
      · exact Option.some.inj hm
    rw [setLoop, hu', hm']
    generalize scan fmt h m.entries key m.entries.length
      ((hashValue fmt h key).toNat &&& (m.entries.length - 1)) none = slot at hs ⊢
    cases slot with
    | present idx => exact Option.some.inj hs
    | free idx => exact Option.some.inj hs
    | full =>
      obtain ⟨g, hg, hs⟩ := Option.bind_eq_some_iff.1 hs
      dsimp only
      rw [grow_eq_of_grow? hg]
      exact ih hs

/-- An insertion whose loops end. -/
theorem set_eq_of_set? (hs : set? fmt h t key value = some t') : set fmt h t key value = t' :=
  setLoop_eq_of_setLoop? hs

end Insertions

/-! ### Names as labels -/

section Names

variable {fmt : Printf} {h h' : Heap} {t : HashObj} {r : Ref} {s : StringObj} {key value : Value}
  {name : Bytes} {d : Bytes → Option Value}

/-- The bytes of a key that is a string. -/
def nameText (h : Heap) : Value → Option Bytes
  | .obj r => (h.string? r).map (·.chars)
  | _ => none

theorem nameText_eq_some : nameText h key = some name ↔
    ∃ r s, key = .obj r ∧ h.get? r = some (.string s) ∧ s.chars = name := by
  cases key with
  | obj r => simp [nameText, ← string?_eq_some]
  | _ => simp [nameText]

theorem keyRepr_of_nameText (hn : nameText h key = some name) : keyRepr fmt h key = some name := by
  obtain ⟨r, s, rfl, hr, rfl⟩ := nameText_eq_some.1 hn
  exact keyRepr_string hr

/-- The bytes of names are their labels. -/
def nameLabels (fmt : Printf) (h : Heap) : Labels fmt h Bytes where
  label := nameText h
  code := hashString
  hash hkey := by
    unfold hashValue
    rw [keyRepr_of_nameText hkey]
  equal hk hk' := by
    unfold keyEquals
    rw [keyRepr_of_nameText hk, keyRepr_of_nameText hk']
    exact beq_iff_eq

/-- The strings there are stay what they are. -/
def KeepsStrings (h h' : Heap) : Prop :=
  ∀ r s, h.get? r = some (.string s) → h'.get? r = some (.string s)

theorem KeepsStrings.refl (h : Heap) : KeepsStrings h h := fun _ _ hr => hr

theorem KeepsStrings.trans {h'' : Heap} (hh : KeepsStrings h h') (hh' : KeepsStrings h' h'') :
    KeepsStrings h h'' := fun r s hr => hh' r s (hh r s hr)

theorem KeepsStrings.nameText (hk : KeepsStrings h h') (hn : nameText h key = some name) :
    HashObj.nameText h' key = some name := by
  obtain ⟨r, s, rfl, hr, rfl⟩ := nameText_eq_some.1 hn
  exact nameText_eq_some.2 ⟨r, s, rfl, hk r s hr, rfl⟩

/-- A scope stays the map it is when the heap changes. -/
theorem Refines.rename (hr : Refines (nameLabels fmt h) t d) (hk : KeepsStrings h h') :
    Refines (nameLabels fmt h') t d := by
  refine hr.steady rfl fun e he => ?_
  obtain ⟨name, hn⟩ := Option.isSome_iff_exists.1 (hr.label e he)
  rw [hn]
  exact hk.nameText hn

/-- A name is bound. -/
theorem Refines.set_name (hr : Refines (nameLabels fmt h) t d) (hn : nameText h key = some name)
    (value : Value) :
    Refines (nameLabels fmt h) (set fmt h t key value) (Function.update d name (some value)) := by
  have hkey : key ≠ .null := by
    rintro rfl
    cases hn
  obtain ⟨t', hset, hr'⟩ := hr.exists_set? (L := nameLabels fmt h) (.inl hkey) hn value
  rwa [set_eq_of_set? hset]

/-- Reading a name. -/
theorem Refines.getRaw_name (hr : Refines (nameLabels fmt h) t d) (hn : nameText h key = some name) :
    (HashObj.getRaw fmt h t key).2 = (d name).getD .null := (hr.getRaw (L := nameLabels fmt h) hn).1

end Names

end HashObj

namespace VM

open HashObj (nameLabels nameText KeepsStrings)

variable {fmt : Printf} {vm vm' : VM} {r : Ref} {t : HashObj} {named : List Value} {name : Bytes}
  {d : Bytes → Option Value}

theorem string?_eq_nameText (vm : VM) (v : Value) : vm.string? v = nameText vm.objects v := by
  cases v <;> rfl

/-- The value that named arguments give a name: that of the last pair with it. -/
def binding? (vm : VM) (named : List Value) (name : Bytes) : Option Value :=
  (named.filterMap fun v => match vm.keyValue? v with
    | some (key, value) => if vm.string? key = some name then some value else none
    | none => none).getLast?

/-- The bindings of a scope after named arguments were stored. -/
def bindings (vm : VM) (named : List Value) (d : Bytes → Option Value) (name : Bytes) :
    Option Value := (vm.binding? named name).or (d name)

theorem bindings_nil (vm : VM) (d : Bytes → Option Value) : vm.bindings [] d = d := by
  funext name
  rfl

/-- A pair is stored, and then the others. -/
theorem bindings_cons {v key value : Value} (hv : vm.keyValue? v = some (key, value))
    (hname : vm.string? key = some name) (named : List Value) (d : Bytes → Option Value) :
    vm.bindings (v :: named) d = vm.bindings named (Function.update d name (some value)) := by
  funext x
  rw [bindings, bindings, binding?, binding?, List.filterMap_cons]
  simp only [hv, hname, Option.some.injEq]
  by_cases hx : name = x
  · subst hx
    rw [if_pos rfl, List.getLast?_cons, Function.update_self]
    cases List.getLast? _ <;> rfl
  · rw [if_neg hx, Function.update_of_ne (Ne.symm hx)]

/-- A value that is no pair binds nothing. -/
theorem bindings_cons_none {v : Value} (hv : vm.keyValue? v = none) (named : List Value)
    (d : Bytes → Option Value) : vm.bindings (v :: named) d = vm.bindings named d := by
  funext x
  rw [bindings, bindings, binding?, binding?, List.filterMap_cons]
  simp only [hv]

theorem SameData.bindings_eq (h : SameData vm.objects vm'.objects) :
    vm'.bindings named d = vm.bindings named d := by
  funext x
  simp only [bindings, binding?, h.keyValue?_eq, h.string?_eq]

theorem SameButHashes.keepsStrings {h h' : Heap} (hh : SameButHashes h h') : KeepsStrings h h' :=
  fun _ _ hr => (hh.get?_eq (by rintro t ⟨⟩)).2 hr

/-- The loop that stores the named arguments binds them in the scope, and the last pair with a name
is the one that stays. -/
theorem storeNamed_refines (hr : vm.objects.get? r = some (.hash t))
    (hscope : HashObj.Refines (nameLabels fmt vm.objects) t d)
    (hok : storeNamed fmt (some r) vm named = .ok vm') :
    vm' = { vm with objects := vm'.objects } ∧ SameButHashes vm.objects vm'.objects ∧
      ∃ t', vm'.objects.get? r = some (.hash t') ∧
        HashObj.Refines (nameLabels fmt vm'.objects) t' (vm'.bindings named d) := by
  induction named generalizing vm t d with
  | nil =>
    cases hok
    exact ⟨rfl, .refl _, t, hr, by rwa [bindings_nil]⟩
  | cons v named ih =>
    cases hv : vm.keyValue? v with
    | none =>
      simp only [storeNamed, hv] at hok
      obtain ⟨hvm, hsame, t', hr', hscope'⟩ := ih hr hscope hok
      refine ⟨hvm, hsame, t', hr', ?_⟩
      rwa [bindings_cons_none (by rw [hsame.sameData.keyValue?_eq, hv])]
    | some pair =>
      obtain ⟨key, value⟩ := pair
      cases hname : vm.string? key with
      | none => simp [storeNamed, hv, hname] at hok
      | some name =>
        simp only [storeNamed, hv, hname, hr, Option.isNone_some, Bool.false_eq_true,
          if_false] at hok
        have hset : SameButHashes vm.objects
            (vm.setObj r (.hash (t.set fmt vm.objects key value))).objects := .set_hash hr
        have hself := Heap.get?_set_self (h := vm.objects)
          (o := .hash (t.set fmt vm.objects key value)) (by rw [hr]; rfl : (vm.objects.get? r).isSome)
        have hbound := (hscope.set_name (string?_eq_nameText vm key ▸ hname) value).rename
          hset.keepsStrings
        obtain ⟨hvm, hsame, t', hr', hscope'⟩ := ih hself hbound hok
        refine ⟨hvm, hset.trans hsame, t', hr', ?_⟩
        have hdata := (hset.trans hsame).sameData
        rwa [bindings_cons (by rw [hdata.keyValue?_eq, hv]) (by rw [hdata.string?_eq, hname])]

end VM

end Slp
