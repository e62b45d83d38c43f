import Mathlib.Order.Filter.AtTopBot.Basic
import Mathlib.Order.Filter.Finite
import Slp.Stdlib.TaintGraph
import Slp.Vm.Stringify

/-!
# The law of taint

* `Covered` : a heap in which some of the values in the slots are in wrappers that were made since;
* `Walks` : a walk of a value comes to an end and settles all slots below it;
* `taintLaw_iff` : **values are tainted and get back as they were if and only if no container is below
  itself, and no value that is reached is a cell or tainted.**

Tainting wraps, untainting unwraps, and a slot that has been visited stays as it is (`Later`), whatever
other ways lead to it.  So a container with several ways to it is walked again without any effect.
-/

namespace Slp

open Graph (Acyclic Below Child)

namespace Heap

/-! ### Wrapped values -/

/-- The second value is a wrapper of the first, which is no container. -/
structure Wraps (h₀ h : Heap) (w w' : Value) : Prop where
  leaf : h₀.storage? w = none
  wrapper : ∃ q, w' = .obj q ∧ h.get? q = some (.tainted w)

/-- Of the values in the slots of the first heap some are wrapped in the second. -/
structure Covered (h₀ h : Heap) : Prop where
  kinds : SameKinds h₀ h
  old : ∀ q w, q < h₀.freshRef → h.get? q = some (.tainted w) → h₀.get? q = some (.tainted w)
  fresh : h₀.freshRef ≤ h.freshRef
  empty : ∀ r i, h₀.slotAt r i = none → h.slotAt r i = none
  slot : ∀ r i w, h₀.slotAt r i = some w → ∃ w', h.slotAt r i = some w' ∧ (w' = w ∨ Wraps h₀ h w w')

/-- A value that is reached: it is neither a cell nor tainted, and its address was handed out. -/
structure Bare (h₀ : Heap) (u : Value) : Prop where
  notCell : h₀.isCell u = false
  notTainted : h₀.isTainted u = false
  known : h₀.Known u

/-- A Java object has a list or a map, but not both. -/
def OneStorage (h : Heap) : Prop := ∀ r j, h.get? r = some (.javaObject j) → j.list = none ∨ j.map = none

variable {h₀ h h' : Heap} {r q : Ref} {i : ℕ} {u v w x y : Value}

theorem Wraps.mono (hw : Wraps h₀ h w x) (hk : VM.KeepsTainted h h') : Wraps h₀ h' w x := by
  obtain ⟨hleaf, q, rfl, hq⟩ := hw
  exact ⟨hleaf, q, rfl, hk q w hq⟩

theorem Wraps.ne_null (hw : Wraps h₀ h w x) : x ≠ .null := by
  obtain ⟨-, q, rfl, -⟩ := hw
  simp

theorem Wraps.isTainted (hw : Wraps h₀ h w x) : h.isTainted x = true := by
  obtain ⟨-, q, rfl, hq⟩ := hw
  exact isTainted_of_get? hq

theorem Wraps.content? (hw : Wraps h₀ h w x) : h.content? x = none := by
  obtain ⟨-, q, rfl, hq⟩ := hw
  refine content?_of_isCell ?_
  rw [isCell_obj, hq]

namespace Covered

theorem refl (h : Heap) : Covered h h :=
  ⟨.refl h, fun _ _ _ hq => hq, Nat.le_refl _, fun _ _ hr => hr, fun _ _ w hw => ⟨w, hw, .inl rfl⟩⟩

theorem content? (hc : Covered h₀ h) (hu : Bare h₀ u) : h.content? u = none :=
  content?_of_isCell (by rw [hc.kinds.cell, hu.notCell])

/-- What was not tainted at first is not tainted; it may be in a wrapper. -/
theorem not_isTainted (hc : Covered h₀ h) (hu : Bare h₀ u) : h.isTainted u = false := by
  cases htainted : h.isTainted u with
  | false => rfl
  | true =>
    obtain ⟨q, w, rfl, hq⟩ := exists_of_isTainted (by rw [hc.kinds.cell, hu.notCell]) htainted
    rw [← hu.notTainted, isTainted_of_get? (hc.old q w (hu.known q rfl) hq)]

theorem unwrapTaint (hc : Covered h₀ h) (hu : Bare h₀ u) : h.unwrapTaint u = u := by
  have hplain := hc.not_isTainted hu
  cases u with
  | obj r =>
    refine unwrapTaint_of_not_tainted fun w hw => ?_
    rw [isTainted_of_get? hw] at hplain
    cases hplain
  | _ => exact unwrapTaint_of_not_obj (by simp)

theorem unwrapTaint_wraps (hc : Covered h₀ h) (hu : Bare h₀ u) (hw : Wraps h₀ h u x) :
    h.unwrapTaint x = u := by
  obtain ⟨-, q, rfl, hq⟩ := hw
  have hplain := hc.not_isTainted hu
  obtain ⟨n, hn⟩ := Nat.exists_eq_succ_of_ne_zero (length_ne_zero hq)
  rw [Heap.unwrapTaint, hn, Nat.succ_eq_add_one, unwrapLoop, hq]
  cases u with
  | obj r =>
    refine unwrapLoop_of_not_tainted (fun w hw => ?_) n
    rw [isTainted_of_get? hw] at hplain
    cases hplain
  | _ => cases n <;> rfl

theorem putSlot (hc : Covered h₀ h) (hw : h₀.slotAt r i = some w) (hy : y = w ∨ Wraps h₀ h w y) :
    Covered h₀ (h.putSlot r i y) ∧
      ∀ q j, (h.putSlot r i y).slotAt q j = if q = r ∧ j = i then some y else h.slotAt q j := by
  have hmay : h.MayHold r y := by
    obtain rfl | hwraps := hy
    · exact fun hnull => (hc.kinds.array r).2 (mayHold_of_slotAt hw hnull)
    · exact mayHold_of_ne_null hwraps.ne_null
  obtain ⟨x, hx, -⟩ := hc.slot r i w hw
  have hslot := slotAt_putSlot hx hmay
  have hkeeps : VM.KeepsTainted h (h.putSlot r i y) := fun q z hq => get?_putSlot_tainted.2 hq
  refine ⟨⟨hc.kinds.trans (sameKinds_putSlot ..), fun q z hlt hq => hc.old q z hlt (get?_putSlot_tainted.1 hq),
    by rw [freshRef_putSlot]; exact hc.fresh, fun q j hq => ?_, fun q j z hz => ?_⟩, hslot⟩
  · rw [hslot, if_neg, hc.empty q j hq]
    rintro ⟨rfl, rfl⟩
    rw [hw] at hq
    cases hq
  · rw [hslot]
    by_cases hsame : q = r ∧ j = i
    · obtain ⟨rfl, rfl⟩ := hsame
      obtain rfl := Option.some.inj (hw.symm.trans hz)
      exact ⟨y, if_pos ⟨rfl, rfl⟩, hy.imp_right fun hwraps => hwraps.mono hkeeps⟩
    · obtain ⟨z', hz', hz⟩ := hc.slot q j z hz
      exact ⟨z', by rw [if_neg hsame, hz'], hz.imp_right fun hwraps => hwraps.mono hkeeps⟩

theorem setContent (hc : Covered h₀ h) (r : Ref) (y : Value) : Covered h₀ (h.setContent r y) := by
  refine ⟨hc.kinds.trans (sameKinds_setContent ..),
    fun q z hlt hq => hc.old q z hlt (get?_setContent_tainted.1 hq), ?_,
    fun q j hq => (slotAt_setContent ..).trans (hc.empty q j hq), fun q j z hz => ?_⟩
  · obtain heq | ⟨x, watch, -, heq⟩ := setContent_eq h r y
    · rw [heq]
      exact hc.fresh
    · rw [heq, freshRef_set]
      exact hc.fresh
  · obtain ⟨z', hz', hz⟩ := hc.slot q j z hz
    exact ⟨z', (slotAt_setContent ..).trans hz',
      hz.imp_right fun hwraps => hwraps.mono fun q z hq => get?_setContent_tainted.2 hq⟩

theorem wrapper (hc : Covered h₀ h) (v : Value) : Covered h₀ (⟨h.freshRef, false, .tainted v⟩ :: h) := by
  have hkeeps : VM.KeepsTainted h (⟨h.freshRef, false, .tainted v⟩ :: h) :=
    fun q w hq => get?_wrapper_of_some v hq
  refine ⟨hc.kinds.trans (sameKinds_wrapper ..), fun q w hlt hq => ?_,
    hc.fresh.trans (Nat.le_max_right ..), fun q j hq => (slotAt_wrapper ..).trans (hc.empty q j hq),
    fun q j z hz => ?_⟩
  · rw [get?_wrapper, if_neg (Nat.ne_of_gt (hlt.trans_le hc.fresh))] at hq
    exact hc.old q w hlt hq
  · obtain ⟨z', hz', hz⟩ := hc.slot q j z hz
    exact ⟨z', (slotAt_wrapper ..).trans hz', hz.imp_right fun hwraps => hwraps.mono hkeeps⟩

end Covered

end Heap

namespace VM

open Heap

/-! ### A walk that comes to an end -/

section Walks

variable (h₀ : Heap) (Q : Heap → Value → Value → Prop)

/-- What a walk makes of a value is the value or a wrapper of it, and stays so. -/
structure Aim : Prop where
  covered : ∀ h w w', Q h w w' → w' = w ∨ Wraps h₀ h w w'
  mono : ∀ h h' w w', KeepsTainted h h' → Q h w w' → Q h' w w'

/-- Wrappers stay, and slots that have been visited. -/
structure Later (h h' : Heap) : Prop where
  tainted : KeepsTainted h h'
  slot : ∀ r i w w', h₀.slotAt r i = some w → h.slotAt r i = some w' → Q h w w' →
    ∃ w'', h'.slotAt r i = some w'' ∧ Q h' w w''

/-- The slots below a value have been visited. -/
def Settled (h : Heap) (v : Value) : Prop :=
  ∀ u r i w, Below h₀.slots [v] u → h₀.storage? u = some r → h₀.slotAt r i = some w →
    ∃ w', h.slotAt r i = some w' ∧ Q h w w'

/-- The walk of a value comes to an end, and what is below the value is settled then. -/
def Walks (walk : VM → Value → Option (VM × Value)) (v : Value) : Prop :=
  ∀ vm v₁, Covered h₀ vm.objects → (v₁ = v ∨ Wraps h₀ vm.objects v v₁) →
    ∃ vm' v', walk vm v₁ = some (vm', v') ∧ Covered h₀ vm'.objects ∧
      Later h₀ Q vm.objects vm'.objects ∧ Q vm'.objects v v' ∧ Settled h₀ Q vm'.objects v

variable {h₀ Q} {h h' h'' : Heap} {walk : VM → Value → Option (VM × Value)} {vm : VM} {r : Ref} {i : ℕ}
  {u v w y : Value}

theorem Later.refl (h : Heap) : Later h₀ Q h h :=
  ⟨fun _ _ hq => hq, fun _ _ _ w' _ hw' hQ => ⟨w', hw', hQ⟩⟩

theorem Later.trans (hl : Later h₀ Q h h') (hl' : Later h₀ Q h' h'') : Later h₀ Q h h'' := by
  refine ⟨fun q w hq => hl'.tainted q w (hl.tainted q w hq), fun r i w w' hw hw' hQ => ?_⟩
  obtain ⟨x, hx, hQ⟩ := hl.slot r i w w' hw hw' hQ
  exact hl'.slot r i w x hw hx hQ

theorem Settled.mono (hs : Settled h₀ Q h v) (hl : Later h₀ Q h h') : Settled h₀ Q h' v := by
  intro u r i w hu hr hw
  obtain ⟨w', hw', hQ⟩ := hs u r i w hu hr hw
  exact hl.slot r i w w' hw hw' hQ

theorem settled_of_leaf (hv : h₀.storage? v = none) : Settled h₀ Q h v := by
  intro u r i w hu hr
  rw [below_of_leaf hv hu, hv] at hr
  cases hr

theorem Aim.putSlot (hQ : Aim h₀ Q) (hc : Covered h₀ h) (hw : h₀.slotAt r i = some w) (hy : Q h w y) :
    Covered h₀ (h.putSlot r i y) ∧ Later h₀ Q h (h.putSlot r i y) ∧
      (h.putSlot r i y).slotAt r i = some y ∧ Q (h.putSlot r i y) w y := by
  obtain ⟨hput, hslot⟩ := hc.putSlot hw (hQ.covered h w y hy)
  have hkeeps : KeepsTainted h (h.putSlot r i y) := fun q z hq => get?_putSlot_tainted.2 hq
  refine ⟨hput, ⟨hkeeps, fun q j z z' hz hz' hQz => ?_⟩, by rw [hslot, if_pos ⟨rfl, rfl⟩],
    hQ.mono _ _ _ _ hkeeps hy⟩
  rw [hslot]
  by_cases hsame : q = r ∧ j = i
  · obtain ⟨rfl, rfl⟩ := hsame
    obtain rfl := Option.some.inj (hw.symm.trans hz)
    exact ⟨y, if_pos ⟨rfl, rfl⟩, hQ.mono _ _ _ _ hkeeps hy⟩
  · exact ⟨z', by rw [if_neg hsame, hz'], hQ.mono _ _ _ _ hkeeps hQz⟩

theorem exists_walkSlots (hQ : Aim h₀ Q) (is : List ℕ)
    (hwalk : ∀ i ∈ is, ∀ w, h₀.slotAt r i = some w → Walks h₀ Q walk w) (hc : Covered h₀ vm.objects) :
    ∃ vm', walkSlots walk r vm is = some vm' ∧ Covered h₀ vm'.objects ∧
      Later h₀ Q vm.objects vm'.objects ∧ ∀ i ∈ is, ∀ w, h₀.slotAt r i = some w →
        (∃ w', vm'.objects.slotAt r i = some w' ∧ Q vm'.objects w w') ∧ Settled h₀ Q vm'.objects w := by
  induction is generalizing vm with
  | nil => exact ⟨vm, rfl, hc, .refl _, fun i hi => absurd hi List.not_mem_nil⟩
  | cons i is ih =>
    have hrest := fun j hj => hwalk j (List.mem_cons_of_mem i hj)
    unfold walkSlots
    cases hslot : h₀.slotAt r i with
    | none =>
      rw [hc.empty r i hslot]
      obtain ⟨vm', hrun, hc', hl, hdone⟩ := ih hrest hc
      refine ⟨vm', hrun, hc', hl, List.forall_mem_cons.2 ⟨fun w hw => ?_, hdone⟩⟩
      rw [hslot] at hw
      cases hw
    | some w =>
      obtain ⟨w₁, hw₁, hw⟩ := hc.slot r i w hslot
      rw [hw₁]
      obtain ⟨vm₁, y, hrun, hc₁, hl, hy, hsettled⟩ := hwalk i List.mem_cons_self w hslot vm w₁ hc hw
      obtain ⟨hc₂, hl₂, hself, hy₂⟩ := hQ.putSlot hc₁ hslot hy
      obtain ⟨vm', hrun', hc', hl', hdone⟩ :=
        @ih { vm₁ with objects := vm₁.objects.putSlot r i y } hrest hc₂
      refine ⟨vm', ?_, hc', (hl.trans hl₂).trans hl', List.forall_mem_cons.2 ⟨fun x hx => ?_, hdone⟩⟩
      · dsimp only
        rw [hrun]
        exact hrun'
      · obtain rfl := Option.some.inj (hslot.symm.trans hx)
        exact ⟨hl'.slot r i w y hslot hself hy₂, hsettled.mono (hl₂.trans hl')⟩

/-- A container whose slots can be walked. -/
theorem exists_walkStorages (hQ : Aim h₀ Q) (hr : h₀.storage? v = some r)
    (hwalk : ∀ i w, h₀.slotAt r i = some w → Walks h₀ Q walk w) (hc : Covered h₀ vm.objects) :
    ∃ vm', walkStorages walk [r] vm = some vm' ∧ Covered h₀ vm'.objects ∧
      Later h₀ Q vm.objects vm'.objects ∧ Settled h₀ Q vm'.objects v := by
  obtain ⟨vm', hrun, hc', hl, hdone⟩ := exists_walkSlots hQ
    (List.range (vm.objects.slotCount r)) (fun i _ => hwalk i) hc
  refine ⟨vm', by rw [walkStorages, hrun]; rfl, hc', hl, ?_⟩
  have hslot : ∀ {i w}, h₀.slotAt r i = some w →
      (∃ w', vm'.objects.slotAt r i = some w' ∧ Q vm'.objects w w') ∧ Settled h₀ Q vm'.objects w := by
    intro i w hw
    obtain ⟨w₁, hw₁, -⟩ := hc.slot r i w hw
    exact hdone i (List.mem_range.2 (lt_slotCount hw₁)) w hw
  intro u q j x hu hq hx
  obtain rfl | ⟨w, hw, hu⟩ := below_self_or_child hu
  · obtain rfl := Option.some.inj (hr.symm.trans hq)
    exact (hslot hx).1
  · obtain ⟨r', i, hr', hw⟩ := child_iff.1 hw
    obtain rfl := Option.some.inj (hr.symm.trans hr')
    exact (hslot hw).2 u q j x hu hq hx

/-- A bound that is enough for all slots of a container. -/
theorem eventually_slots {P : ℕ → Value → Prop} (r : Ref)
    (hP : ∀ i w, h₀.slotAt r i = some w → ∀ᶠ n in Filter.atTop, P n w) :
    ∀ᶠ n in Filter.atTop, ∀ i w, h₀.slotAt r i = some w → P n w := by
  have hall : ∀ᶠ n in Filter.atTop, ∀ i ∈ Finset.range (h₀.slotCount r), ∀ w,
      h₀.slotAt r i = some w → P n w := by
    refine (Filter.eventually_all_finset _).2 fun i _ => ?_
    cases hw : h₀.slotAt r i with
    | none => exact .of_forall fun n w hw => by cases hw
    | some w => exact (hP i w hw).mono fun n hn x hx => Option.some.inj hx ▸ hn
  exact hall.mono fun n hn i w hw => hn i (Finset.mem_range.2 (lt_slotCount hw)) w hw

end Walks

end VM

namespace VM

open Heap

variable {sizeof : ObjType → ℕ} {h₀ h : Heap} {vm : VM} {u v w x y : Value}

/-! ### Tainting -/

/-- A value is as it was if it is a container, and otherwise it is wrapped. -/
def TaintedAs (h₀ h : Heap) (w w' : Value) : Prop :=
  (h₀.storage? w).isSome ∧ w' = w ∨ Wraps h₀ h w w'

theorem aim_taintedAs (h₀ : Heap) : Aim h₀ (TaintedAs h₀) :=
  ⟨fun _ _ _ hw => hw.imp_left And.right, fun _ _ _ _ hk hw => hw.imp_right fun hwraps => hwraps.mono hk⟩

/-- A node is reached from its parent. -/
theorem below_of_child (hw : Child h₀.slots v w) (hu : Below h₀.slots [w] u) : Below h₀.slots [v] u := by
  obtain ⟨s, hs, hu⟩ := hu
  obtain rfl := List.mem_singleton.1 hs
  exact ⟨v, List.mem_singleton_self v, hu.head hw⟩

theorem exists_taint (hacc : Acc (flip (Child h₀.slots)) v) (hbare : ∀ u, Below h₀.slots [v] u → Bare h₀ u) :
    ∀ᶠ fuel in Filter.atTop, Walks h₀ (TaintedAs h₀) (taintValueRecursive sizeof fuel) v := by
  induction hacc with
  | intro v _ ih =>
    have hv := hbare v .head
    -- a value that is wrapped already is left as it is
    have hwrapped : ∀ fuel vm v₁, Covered h₀ vm.objects → Wraps h₀ vm.objects v v₁ →
        ∃ vm' v', taintValueRecursive sizeof (fuel + 1) vm v₁ = some (vm', v') ∧ Covered h₀ vm'.objects ∧
          Later h₀ (TaintedAs h₀) vm.objects vm'.objects ∧ TaintedAs h₀ vm'.objects v v' ∧
          Settled h₀ (TaintedAs h₀) vm'.objects v := by
      intro fuel vm v₁ hc hw
      refine ⟨vm, v₁, ?_, hc, .refl _, .inr hw, settled_of_leaf hw.leaf⟩
      unfold taintValueRecursive
      rw [hw.content?]
      dsimp only
      rw [if_pos hw.isTainted]
    cases hr : h₀.storage? v with
    | some r =>
      have hslots : ∀ᶠ fuel in Filter.atTop, ∀ i w, h₀.slotAt r i = some w →
          Walks h₀ (TaintedAs h₀) (taintValueRecursive sizeof fuel) w := by
        refine eventually_slots r fun i w hw => ?_
        have hchild : Child h₀.slots v w := child_iff.2 ⟨r, i, hr, hw⟩
        exact ih w hchild fun u hu => hbare u (below_of_child hchild hu)
      obtain ⟨n, hn⟩ := Filter.eventually_atTop.1 hslots
      refine Filter.eventually_atTop.2 ⟨n + 1, fun fuel hfuel vm v₁ hc hv₁ => ?_⟩
      obtain ⟨fuel, rfl⟩ := Nat.exists_eq_add_of_le' (Nat.le_of_add_left_le hfuel)
      obtain rfl | hw := hv₁
      · obtain ⟨vm', hrun, hc', hl, hsettled⟩ := exists_walkStorages (aim_taintedAs h₀) hr
          (hn fuel (Nat.le_of_add_le_add_right hfuel)) hc
        refine ⟨vm', v₁, ?_, hc', hl, .inl ⟨by rw [hr]; rfl, rfl⟩, hsettled⟩
        unfold taintValueRecursive
        rw [hc.content? hv, if_neg (by simp [hc.not_isTainted hv]), hc.kinds.storage, hr]
        dsimp only
        rw [hrun]
        rfl
      · exact hwrapped fuel vm v₁ hc hw
    | none =>
      refine Filter.eventually_atTop.2 ⟨1, fun fuel hfuel vm v₁ hc hv₁ => ?_⟩
      obtain ⟨fuel, rfl⟩ := Nat.exists_eq_add_of_le' hfuel
      obtain rfl | hw := hv₁
      · obtain ⟨hobjects, hresult⟩ := taintValue_leaf sizeof (hc.not_isTainted hv)
          ((hc.kinds.storage v₁).trans hr)
        have hwraps : Wraps h₀ (taintValue sizeof 1 vm v₁).1.objects v₁ (taintValue sizeof 1 vm v₁).2 := by
          refine ⟨hr, vm.objects.freshRef, hresult, ?_⟩
          rw [hobjects, get?_wrapper, if_pos rfl]
        refine ⟨_, _, ?_, hobjects ▸ hc.wrapper v₁, ?_, .inr hwraps, settled_of_leaf hr⟩
        · unfold taintValueRecursive
          rw [hc.content? hv, if_neg (by simp [hc.not_isTainted hv]), hc.kinds.storage, hr]
        · rw [hobjects]
          have hk : KeepsTainted vm.objects (⟨vm.objects.freshRef, false, .tainted v₁⟩ :: vm.objects) :=
            fun q w hq => get?_wrapper_of_some v₁ hq
          exact ⟨hk, fun q j w w' _ hw' hQ => ⟨w', (slotAt_wrapper ..).trans hw',
            (aim_taintedAs h₀).mono _ _ _ _ hk hQ⟩⟩
      · exact hwrapped fuel vm v₁ hc hw

/-! ### Untainting -/

theorem storages_eq (hone : h.OneStorage) (v : Value) : h.storages v = (h.storage? v).toList := by
  cases v with
  | obj r =>
    show _ = ((h.get? r).bind _).toList
    unfold storages
    dsimp only
    cases ho : h.get? r with
    | none => rfl
    | some o =>
      cases o with
      | javaObject j =>
        show j.list.toList ++ j.map.toList = (j.list.or j.map).toList
        obtain hlist | hmap := hone r j ho
        · rw [hlist, Option.none_or]
          rfl
        · rw [hmap, Option.or_none]
          exact List.append_nil _
      | _ => rfl
  | _ => rfl

theorem aim_eq (h₀ : Heap) : Aim h₀ fun _ w w' => w' = w :=
  ⟨fun _ _ _ hw => .inl hw, fun _ _ _ _ _ hw => hw⟩

theorem exists_untaint (hone : h₀.OneStorage) (hacc : Acc (flip (Child h₀.slots)) v)
    (hbare : ∀ u, Below h₀.slots [v] u → Bare h₀ u) :
    ∀ᶠ fuel in Filter.atTop, Walks h₀ (fun _ w w' => w' = w) (untaintValueRecursive fuel) v := by
  induction hacc with
  | intro v _ ih =>
    have hv := hbare v .head
    -- what is in a wrapper is no container
    have hwrapped : ∀ fuel vm v₁, Covered h₀ vm.objects → Wraps h₀ vm.objects v v₁ →
        untaintValueRecursive (fuel + 1) vm v₁ = some (vm, v) := by
      intro fuel vm v₁ hc hw
      unfold untaintValueRecursive
      rw [hw.content?]
      dsimp only
      rw [hc.unwrapTaint_wraps hv hw, hc.kinds.storages, storages_eq hone, hw.leaf]
      rfl
    cases hr : h₀.storage? v with
    | some r =>
      have hslots : ∀ᶠ fuel in Filter.atTop, ∀ i w, h₀.slotAt r i = some w →
          Walks h₀ (fun _ w w' => w' = w) (untaintValueRecursive fuel) w := by
        refine eventually_slots r fun i w hw => ?_
        have hchild : Child h₀.slots v w := child_iff.2 ⟨r, i, hr, hw⟩
        exact ih w hchild fun u hu => hbare u (below_of_child hchild hu)
      obtain ⟨n, hn⟩ := Filter.eventually_atTop.1 hslots
      refine Filter.eventually_atTop.2 ⟨n + 1, fun fuel hfuel vm v₁ hc hv₁ => ?_⟩
      obtain ⟨fuel, rfl⟩ := Nat.exists_eq_add_of_le' (Nat.le_of_add_left_le hfuel)
      obtain rfl | hw := hv₁
      · obtain ⟨vm', hrun, hc', hl, hsettled⟩ := exists_walkStorages (aim_eq h₀) hr
          (hn fuel (Nat.le_of_add_le_add_right hfuel)) hc
        refine ⟨vm', v₁, ?_, hc', hl, rfl, hsettled⟩
        unfold untaintValueRecursive
        rw [hc.content? hv]
        dsimp only
        rw [hc.unwrapTaint hv, hc.kinds.storages, storages_eq hone, hr]
        exact (congrArg (Option.map fun vm => (vm, v₁)) hrun).trans rfl
      · have hleaf := hw.leaf
        rw [hr] at hleaf
        cases hleaf
    | none =>
      refine Filter.eventually_atTop.2 ⟨1, fun fuel hfuel vm v₁ hc hv₁ => ?_⟩
      obtain ⟨fuel, rfl⟩ := Nat.exists_eq_add_of_le' hfuel
      obtain rfl | hw := hv₁
      · refine ⟨vm, v₁, ?_, hc, .refl _, rfl, settled_of_leaf hr⟩
        unfold untaintValueRecursive
        rw [hc.content? hv]
        dsimp only
        rw [hc.unwrapTaint hv, hc.kinds.storages, storages_eq hone, hr]
        rfl
      · exact ⟨vm, v, hwrapped fuel vm v₁ hc hw, hc, .refl _, rfl, settled_of_leaf hr⟩

end VM

/-! ### The law -/

section

open Heap VM

variable {sizeof : ObjType → ℕ} {h₀ h₁ h₂ : Heap} {vm : VM} {u v w w₁ w₂ : Value}

theorem positionLaw_of (hc₂ : Covered h₀ h₂) (hw : Bare h₀ w)
    (hw₁ : TaintedAs h₀ h₁ w w₁) (hw₂ : w₂ = w) : PositionLaw h₀ h₁ h₂ w w₁ w₂ := by
  subst hw₂
  refine ⟨fun hcell => ?_, fun hleaf => ?_, fun _ => hc₂.not_isTainted hw, rfl⟩
  · rw [hw.notCell] at hcell
    cases hcell
  · obtain ⟨hsome, -⟩ | hwraps := hw₁
    · rw [hleaf] at hsome
      cases hsome
    · exact hwraps.isTainted

/-- Both walks come to an end, and all slots below the value get what the law says. -/
theorem exists_walks (hone : h₀.OneStorage) (hacyclic : Acyclic h₀.slots [v])
    (hbare : ∀ u, Below h₀.slots [v] u → Bare h₀ u) :
    ∃ n, ∀ fuel ≥ n, Walks h₀ (TaintedAs h₀) (taintValueRecursive sizeof fuel) v ∧
      Walks h₀ (fun _ w w' => w' = w) (untaintValueRecursive fuel) v := by
  have hacc := hacyclic.acc (finite_slots h₀) .head
  exact Filter.eventually_atTop.1 ((exists_taint hacc hbare).and (exists_untaint hone hacc hbare))

theorem taintLaw_of_taintable (hone : vm.objects.OneStorage)
    (hknown : ∀ u, Below vm.objects.slots [vm.objects.held v v] u → vm.objects.Known u)
    (ht : vm.objects.Taintable v) : TaintLaw sizeof vm v := by
  have hbare : ∀ u, Below vm.objects.slots [vm.objects.held v v] u → Bare vm.objects u :=
    fun u hu => ⟨(ht.bare u hu).1, (ht.bare u hu).2, hknown u hu⟩
  obtain ⟨n, hn⟩ := exists_walks hone ht.acyclic hbare
  have hrefl := Covered.refl vm.objects
  cases hcontent : vm.objects.content? v with
  | none =>
    have hheld : vm.objects.held v v = v := by rw [held, hcontent]
    have hcell := isCell_of_content?_none hcontent
    rw [hheld] at hn hbare
    obtain ⟨htaint, huntaint⟩ := hn n (Nat.le_refl n)
    obtain ⟨vm₁, r₁, hrun₁, hc₁, -, hr₁, hsettled₁⟩ := htaint vm v hrefl (.inl rfl)
    obtain ⟨vm₂, r₂, hrun₂, hc₂, -, hr₂, hsettled₂⟩ :=
      huntaint vm₁ r₁ hc₁ ((aim_taintedAs _).covered _ _ _ hr₁)
    refine ⟨n, vm₁, r₁, vm₂, r₂, hrun₁, by rwa [if_neg (by simp [hcell])], ?_, ?_⟩
    · rw [hheld, held, content?_of_isCell (by rw [hc₁.kinds.cell, hcell]), held,
        content?_of_isCell (by rw [hc₂.kinds.cell, hcell])]
      exact positionLaw_of hc₂ (hbare v .head) hr₁ hr₂
    · rw [hheld]
      intro u r i w hu hr hw
      obtain ⟨w₁, hw₁, hQ₁⟩ := hsettled₁ u r i w hu hr hw
      obtain ⟨w₂, hw₂, hQ₂⟩ := hsettled₂ u r i w hu hr hw
      have hbelow : Below vm.objects.slots [v] w := hu.step (child_iff.2 ⟨r, i, hr, hw⟩)
      exact ⟨w₁, w₂, hw₁, hw₂, positionLaw_of hc₂ (hbare w hbelow) hQ₁ hQ₂⟩
  | some p =>
    obtain ⟨c, x⟩ := p
    have hheld : vm.objects.held v v = x := by rw [held, hcontent]
    have hcell := isCell_of_content? hcontent
    obtain ⟨rfl, -⟩ := content?_eq_some hcontent
    rw [hheld] at hn hbare
    obtain ⟨htaint, huntaint⟩ := hn n (Nat.le_refl n)
    obtain ⟨vm₁, r₁, hrun₁, hc₁, -, hr₁, hsettled₁⟩ := htaint vm x hrefl (.inl rfl)
    have hcontent₁ := content?_setContent (h := vm₁.objects) (r := c) (by rw [hc₁.kinds.cell, hcell]) r₁
    have hc₁' := hc₁.setContent c r₁
    have hr₁' : TaintedAs vm.objects (vm₁.objects.setContent c r₁) x r₁ :=
      (aim_taintedAs _).mono _ _ _ _ (fun q w hq => get?_setContent_tainted.2 hq) hr₁
    obtain ⟨vm₂, r₂, hrun₂, hc₂, -, hr₂, hsettled₂⟩ :=
      huntaint { vm₁ with objects := vm₁.objects.setContent c r₁ } r₁ hc₁'
        ((aim_taintedAs _).covered _ _ _ hr₁')
    have hcontent₂ := content?_setContent (h := vm₂.objects) (r := c) (by rw [hc₂.kinds.cell, hcell]) r₂
    refine ⟨n + 1, { vm₁ with objects := vm₁.objects.setContent c r₁ }, r₁,
      { vm₂ with objects := vm₂.objects.setContent c r₂ }, r₂, ?_, ?_, ?_, ?_⟩
    · unfold taintValueRecursive walkContent
      rw [hcontent]
      dsimp only
      rw [hrun₁]
      rfl
    · unfold untaintValueRecursive walkContent
      rw [if_pos hcell]
      dsimp only
      rw [hcontent₁]
      dsimp only
      rw [hrun₂]
      rfl
    · rw [hheld, held, hcontent₁, held, hcontent₂]
      exact positionLaw_of (hc₂.setContent c r₂) (hbare x .head) hr₁' hr₂
    · rw [hheld]
      intro u r i w hu hr hw
      obtain ⟨w₁, hw₁, hQ₁⟩ := hsettled₁ u r i w hu hr hw
      obtain ⟨w₂, hw₂, hQ₂⟩ := hsettled₂ u r i w hu hr hw
      have hbelow : Below vm.objects.slots [x] w := hu.step (child_iff.2 ⟨r, i, hr, hw⟩)
      have hQ₁' := (aim_taintedAs _).mono _ _ _ _
        (fun q w hq => get?_setContent_tainted.2 hq : KeepsTainted vm₁.objects (vm₁.objects.setContent c r₁)) hQ₁
      exact ⟨w₁, w₂, (slotAt_setContent ..).trans hw₁, (slotAt_setContent ..).trans hw₂,
        positionLaw_of (hc₂.setContent c r₂) (hbare w hbelow) hQ₁' hQ₂⟩

/-- The builtins taint a graph of values and get it back as it was if and only if no container in it
is below itself and no value in it is a cell or tainted. -/
theorem taintLaw_iff (hone : vm.objects.OneStorage)
    (hknown : ∀ u, Below vm.objects.slots [vm.objects.held v v] u → vm.objects.Known u) :
    TaintLaw sizeof vm v ↔ vm.objects.Taintable v :=
  ⟨TaintLaw.taintable, taintLaw_of_taintable hone hknown⟩

end

/-- An array that is an element of another one twice, in a variable. -/
def sharedPair : VM where
  objects := [⟨2, false, .scalarCell (.obj 0) none⟩,
    ⟨1, false, .array { elements := [.num 7], count := 1 }⟩,
    ⟨0, false, .array { elements := [.obj 1, .null, .obj 1], count := 3 }⟩]

theorem taintLaw_sharedPair : TaintLaw (fun _ => 1) sharedPair (.obj 2) := by
  have hbelow : ∀ u, Graph.Below sharedPair.objects.slots [.obj 0] u →
      u ∈ [Value.obj 0, .obj 1, .num 7, .null] := fun u hu => hu.mem (by decide) (by decide)
  refine (taintLaw_iff ?_ ?_).2 ⟨?_, ?_⟩
  · intro r j hj
    have hnone : ∀ c ∈ sharedPair.objects, ∀ j, c.obj ≠ .javaObject j := by
      simp [sharedPair]
    obtain ⟨c, hc, -, hobj⟩ := Heap.exists_mem_of_get? hj
    exact absurd hobj (hnone c hc j)
  · intro u hu r hr
    subst hr
    have hmem := hbelow _ hu
    simp only [List.mem_cons, Value.obj.injEq, reduceCtorEq, List.not_mem_nil, or_false] at hmem
    obtain rfl | rfl := hmem <;> decide
  · intro u hu
    have hall : ∀ u ∈ [Value.obj 0, .obj 1, .num 7, .null],
        sharedPair.objects.isCell u = false ∧ sharedPair.objects.isTainted u = false := by decide
    exact hall u (hbelow u hu)
  · exact Graph.acyclic_of_rank (S := [Value.obj 0, .obj 1, .num 7, .null])
      (fun v => if v = .obj 0 then 2 else if v = .obj 1 then 1 else 0) (by decide) (by decide) (by decide)

end Slp
