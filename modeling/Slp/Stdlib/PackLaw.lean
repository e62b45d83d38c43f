import Slp.Stdlib.Fields

/-!
# Packed values are read back

* `Reads` : a reader goes over bytes and gives values that are the same;
* `unpackOne_reads`, `packOne_spec` : what is packed of one value is read back;
* `packField_spec` : and so are the values of a field;
* `roundTrip_of_suits` : **`unpack` gives the values that `pack` took, and reads all of the bytes.**

A field is read in a machine that may have grown since: the other fields are packed in between.
-/

namespace Slp

namespace Pack

open Parse (chr)

variable {D : Type} {H : Host D} {sizeof : ObjType → ℕ} {fmt : Printf} {IsWhole : D → ℤ → Prop}
  {h h' : Heap} {m m' m'' : Machine D} {v w : OperandValue D Ref} {vs ws : List (OperandValue D Ref)}
  {xs ys : Bytes} {last : Prop}

/-! ### Machines that grow -/

/-- Objects are added to the heap, and copies to the objects that were packed. -/
structure Machine.Grows (m m' : Machine D) : Prop where
  heap : Stdlib.Extends m.vm.objects m'.vm.objects
  packed : m.packedObjects <+: m'.packedObjects

theorem Machine.Grows.refl (m : Machine D) : m.Grows m := ⟨.refl _, List.prefix_rfl⟩

theorem Machine.Grows.trans (hm : m.Grows m') (hm' : m'.Grows m'') : m.Grows m'' :=
  ⟨hm.heap.trans hm'.heap, hm.packed.trans hm'.packed⟩

theorem IsObject.extends {r : Ref} (hh : Stdlib.Extends h h') (hr : IsObject h r) : IsObject h' r := by
  unfold IsObject at hr ⊢
  cases ho : h.get? r with
  | none =>
    rw [ho] at hr
    exact hr.elim
  | some o =>
    rw [ho] at hr
    rw [hh.get? ho]
    exact hr

theorem Packable.extends (hh : Stdlib.Extends h h') (hv : Packable fmt h v) : Packable fmt h' v := by
  cases hv with
  | scalar hcell hobject => exact .scalar hcell hobject
  | object hr hser hsafe =>
    exact .object (hr.extends hh) (hser.extends hh) (hsafe.extends hh hser)

theorem InRange.extends {code : Code} (hh : Stdlib.Extends h h')
    (hv : InRange H fmt IsWhole h code v) : InRange H fmt IsWhole h' code v := by
  cases code with
  | o => exact Packable.extends hh hv
  | _ => exact hv

/-- The value is what was packed, in any larger heap. -/
inductive Returned (H : Host D) (fmt : Printf) (IsWhole : D → ℤ → Prop) (h : Heap) :
    OperandValue D Ref → OperandValue D Ref → Prop
  | same {v w : OperandValue D Ref} (hsame : ∀ h, SameValue H fmt IsWhole h v w) :
    Returned H fmt IsWhole h v w
  | object {r r' : Ref} (hr : Stdlib.Serializable fmt h (.obj r))
    (hr' : Stdlib.Serializable fmt h (.obj r')) (hsame : Stdlib.SameData fmt h (.obj r) (.obj r')) :
    Returned H fmt IsWhole h (.other r) (.other r')

theorem Returned.extends (hh : Stdlib.Extends h h') (hv : Returned H fmt IsWhole h v w) :
    Returned H fmt IsWhole h' v w := by
  cases hv with
  | same hsame => exact .same hsame
  | object hr hr' hsame => exact .object (hr.extends hh) (hr'.extends hh) (hsame.extends hh hr hr')

theorem Returned.sameValue (hv : Returned H fmt IsWhole h v w) : SameValue H fmt IsWhole h v w := by
  cases hv with
  | same hsame => exact hsame h
  | object _ _ hsame => exact .object hsame

/-! ### Readers -/

/-- In any machine that `m` has grown to, the reader goes over the bytes `xs` and gives what was
packed.  If it is the last one nothing may follow. -/
def Reads (H : Host D) (fmt : Printf) (IsWhole : D → ℤ → Prop)
    (read : Bytes → UnpackState D → Option (UnpackState D)) (m : Machine D) (xs : Bytes) (last : Prop)
    (vs : List (OperandValue D Ref)) : Prop :=
  ∀ (u tail : Bytes) (s : UnpackState D), m.Grows s.machine → s.offset = u.length →
    (u ++ (xs ++ tail)).length < 2 ^ 31 → (last → tail = []) →
    ∃ M ws, read (u ++ (xs ++ tail)) s = some ⟨M, u.length + xs.length, s.values ++ ws⟩ ∧
      s.machine.Grows M ∧ List.Forall₂ (Returned H fmt IsWhole M.vm.objects) vs ws

variable {read read' : Bytes → UnpackState D → Option (UnpackState D)}

theorem Reads.mono (hm : m.Grows m') (hr : Reads H fmt IsWhole read m xs last vs) :
    Reads H fmt IsWhole read m' xs last vs :=
  fun u tail s hs => hr u tail s (hm.trans hs)

theorem Reads.imp {last' : Prop} (hr : Reads H fmt IsWhole read m xs last vs) (hlast : last → last') :
    Reads H fmt IsWhole read m xs last' vs :=
  fun u tail s hs hoffset hlen h => hr u tail s hs hoffset hlen fun hl => h (hlast hl)

/-- A reader that need not be the last one. -/
theorem Reads.anywhere (hr : Reads H fmt IsWhole read m xs False vs) :
    Reads H fmt IsWhole read m xs last vs := hr.imp False.elim

/-- Readers that do the same where there are bytes. -/
theorem Reads.congr (hr : Reads H fmt IsWhole read m xs last vs)
    (hread : ∀ (u tail : Bytes) (s : UnpackState D), s.offset = u.length → (last → tail = []) →
      read' (u ++ (xs ++ tail)) s = read (u ++ (xs ++ tail)) s) :
    Reads H fmt IsWhole read' m xs last vs := by
  intro u tail s hs hoffset hlen hlast
  rw [hread u tail s hoffset hlast]
  exact hr u tail s hs hoffset hlen hlast

theorem Reads.nil : Reads H fmt IsWhole (fun _ s => some s) m [] last [] := by
  intro u tail s _ hoffset _ _
  exact ⟨s.machine, [], by rw [List.append_nil, List.length_nil, Nat.add_zero, ← hoffset], .refl _, .nil⟩

/-- A reader behind another one. -/
theorem Reads.bind (hr : Reads H fmt IsWhole read m xs False vs)
    (hr' : Reads H fmt IsWhole read' m ys last ws) :
    Reads H fmt IsWhole (fun data s => (read data s).bind (read' data)) m (xs ++ ys) last
      (vs ++ ws) := by
  intro u tail s hs hoffset hlen hlast
  rw [List.append_assoc] at hlen ⊢
  have hdata : u ++ (xs ++ (ys ++ tail)) = u ++ xs ++ (ys ++ tail) := (List.append_assoc ..).symm
  obtain ⟨M, us, hread, hM, hus⟩ := hr u (ys ++ tail) s hs hoffset hlen False.elim
  rw [hdata] at hlen
  obtain ⟨M', us', hread', hM', hus'⟩ := hr' (u ++ xs) tail ⟨M, u.length + xs.length, s.values ++ us⟩
    (hs.trans hM) List.length_append.symm hlen hlast
  refine ⟨M', us ++ us', ?_, hM.trans hM', ?_⟩
  · show (read _ s).bind _ = _
    rw [hread, Option.bind_some, hdata, hread', List.length_append, List.length_append,
      Nat.add_assoc, List.append_assoc]
  · exact List.rel_append (hus.imp fun _ _ hv => hv.extends hM'.heap) hus'

/-- A reader that is asked only where there are bytes. -/
theorem Reads.guarded (hr : Reads H fmt IsWhole read m xs last vs) (hxs : 0 < xs.length) :
    Reads H fmt IsWhole (fun data s => if s.offset < data.length then read data s else some s) m xs
      last vs :=
  hr.congr fun u tail s hoffset _ => if_pos (by simp only [hoffset, List.length_append]; omega)

/-- A last reader that is asked only where there are bytes; without bytes there are no values. -/
theorem Reads.guardedEnd (hr : Reads H fmt IsWhole read m xs True vs) (hxs : xs = [] → vs = []) :
    Reads H fmt IsWhole (fun data s => if s.offset < data.length then read data s else some s) m xs
      True vs := by
  cases xs with
  | cons x xs => exact hr.guarded (Nat.succ_pos _)
  | nil =>
    rw [hxs rfl]
    intro u tail s _ hoffset _ hlast
    refine ⟨s.machine, [], ?_, .refl _, .nil⟩
    dsimp only
    rw [hlast trivial, if_neg (by simp [hoffset]), List.append_nil, List.length_nil, Nat.add_zero,
      ← hoffset]

/-! ### One value -/

theorem isInt_of_lt {n : ℕ} (hn : n < 2 ^ 31) : CInt.IsInt n := ⟨by omega, by omega⟩

/-- A word is read back. -/
theorem unpackWord_reads {n : ℕ} {value : Bytes → OperandValue D Ref} (hlen : xs.length = n)
    (hv : ∀ h, SameValue H fmt IsWhole h v (value xs)) :
    Reads H fmt IsWhole (fun data => unpackWord data n value) m xs False [v] := by
  intro u tail s _ hoffset hdata _
  have hle : u.length + n ≤ (u ++ (xs ++ tail)).length := by
    simp only [List.length_append]
    omega
  refine ⟨s.machine, [value xs], ?_, .refl _, .cons (.same hv) .nil⟩
  have hword : ((u ++ (xs ++ tail)).drop u.length).take n = xs := by
    rw [List.drop_left, ← hlen, List.take_left]
  have hchecked := CInt.checked_of_isInt (isInt_of_lt (Nat.lt_of_le_of_lt hle hdata))
  dsimp only
  unfold unpackWord
  rw [hoffset, ← Nat.cast_add, hchecked]
  show (if ((u.length + n : ℕ) : ℤ) ≤ _ then _ else _) = _
  rw [if_pos (by exact_mod_cast hle), hword, hlen]
  rfl

/-- A number in a single byte. -/
theorem readWord_singleton (x : BitVec 8) (big : Bool) :
    BitVec.ofNat 8 (readWord [.ofBitVec x] big) = x := by
  have hword : readWord [UInt8.ofBitVec x] big = x.toNat := by
    unfold readWord
    cases big <;> simp [ofBigEndian]
  rw [hword, BitVec.ofNat_toNat, BitVec.setWidth_eq]

/-- The value of a letter that stands for a word. -/
theorem reads_word {f : Field} {n : ℕ} (xs : Bytes) (value : Bytes → OperandValue D Ref)
    (hread : ∀ data s, unpackOne H sizeof fmt data f s = unpackWord data n value s)
    (hbytes : scalarBytes H f.code f.bigEndian v = xs) (hlen : xs.length = n) (hunit : f.code.unit = n)
    (hv : ∀ h, SameValue H fmt IsWhole h v (value xs)) :
    (scalarBytes H f.code f.bigEndian v).length = f.code.unit ∧
      Reads H fmt IsWhole (fun data => unpackOne H sizeof fmt data f) m
        (scalarBytes H f.code f.bigEndian v) False [v] := by
  rw [hbytes, hunit]
  exact ⟨hlen, (unpackWord_reads hlen hv).congr fun u tail s _ _ => hread _ s⟩

theorem toNat_ofInt_of_fits {w : ℕ} {n : ℤ} (hlo : 0 ≤ n) (hhi : n < 2 ^ w) :
    ((BitVec.ofInt w n).toNat : ℤ) = n := by
  have hcast : ((2 ^ w : ℕ) : ℤ) = 2 ^ w := by norm_cast
  rw [BitVec.toNat_ofInt, hcast, Int.emod_eq_of_lt hlo hhi, Int.toNat_of_nonneg hlo]

/-- The low byte of a `char` that is widened. -/
theorem setWidth_charToShort (c : UInt8) :
    UInt8.ofBitVec ((charToShort H c).setWidth 8) = c := by
  unfold charToShort
  split
  · have hext : (c.toBitVec.signExtend 16).setWidth 8 = c.toBitVec := by
      ext i hi
      have hi' : i < 16 := by omega
      rw [BitVec.getElem_setWidth, BitVec.getLsbD_signExtend, if_pos hi,
        BitVec.getLsbD_eq_getElem hi, decide_eq_true hi', Bool.true_and]
    rw [hext]
  · rw [BitVec.setWidth_setWidth_of_le _ (by decide), BitVec.setWidth_eq]

theorem same_long {n : ℤ} {x : BitVec 64} (hn : IsInteger IsWhole v n) (hx : x.toInt = n) :
    SameValue H fmt IsWhole h v (.long x) :=
  .integer hn (hx ▸ .long x)

/-- A whole number that a double holds is read back as it is. -/
theorem same_num (hH : Faithful H IsWhole) {n k : ℤ} (hn : IsInteger IsWhole v n) (hk : k = n)
    (hlo : -2 ^ 53 ≤ n) (hhi : n ≤ 2 ^ 53) : SameValue H fmt IsWhole h v (.num (H.ofInt k)) :=
  .integer hn (.num (hk ▸ hH.ofInt n hlo hhi))

variable (sizeof m) in
/-- **What is packed of one value is read back.** -/
theorem unpackOne_reads {f : Field} (hH : Faithful H IsWhole) (ho : f.code ≠ .o)
    (hv : InRange H fmt IsWhole h f.code v) :
    (scalarBytes H f.code f.bigEndian v).length = f.code.unit ∧
      Reads H fmt IsWhole (fun data => unpackOne H sizeof fmt data f) m
        (scalarBytes H f.code f.bigEndian v) False [v] := by
  obtain ⟨code, count, big⟩ := f
  cases code with
  | C =>
    obtain ⟨c, rfl⟩ := hv
    exact reads_word [c] (fun xs => .string xs) (fun _ _ => rfl) rfl rfl rfl fun h => .refl _
  | c =>
    obtain ⟨c, rfl⟩ := hv
    refine reads_word (writeWord 2 (charToShort H c).toNat big)
      (fun xs => .string [.ofBitVec ((BitVec.ofNat 16 (readWord xs big)).setWidth 8)])
      (fun _ _ => rfl) rfl (length_writeWord ..) rfl fun h => ?_
    rw [ofNat_readWord (by norm_num)]
    rw [setWidth_charToShort]
    exact .refl _
  | b =>
    obtain ⟨n, hn, hlo, hhi⟩ := hv
    have hword := hH.toUInt8 _ n (hn.asNumber hH (by omega) (by omega)) hlo (by omega)
    refine reads_word [.ofBitVec (H.toUInt8 (v.asNumber H.toDoubleArith))]
      (fun xs => .num (H.ofInt (BitVec.ofNat 8 (readWord xs big)).toInt))
      (fun _ _ => rfl) rfl rfl rfl fun h => ?_
    rw [readWord_singleton, hword]
    exact same_num hH hn (BitVec.toInt_ofInt_eq_self (by decide) hlo hhi) (by omega) (by omega)
  | B =>
    obtain ⟨n, hn, hlo, hhi⟩ := hv
    have hword := hH.toUInt8 _ n (hn.asNumber hH (by omega) (by omega)) (by omega) (by omega)
    refine reads_word [.ofBitVec (H.toUInt8 (v.asNumber H.toDoubleArith))]
      (fun xs => .num (H.ofInt (BitVec.ofNat 8 (readWord xs big)).toNat))
      (fun _ _ => rfl) rfl rfl rfl fun h => ?_
    rw [readWord_singleton, hword]
    exact same_num hH hn (toNat_ofInt_of_fits hlo hhi) (by omega) (by omega)
  | s =>
    obtain ⟨n, hn, hlo, hhi⟩ := hv
    have hword := hH.toUInt16 _ n (hn.asNumber hH (by omega) (by omega)) hlo (by omega)
    refine reads_word (writeWord 2 (H.toUInt16 (v.asNumber H.toDoubleArith)).toNat big)
      (fun xs => .num (H.ofInt (BitVec.ofNat 16 (readWord xs big)).toInt))
      (fun _ _ => rfl) rfl (length_writeWord ..) rfl fun h => ?_
    rw [ofNat_readWord (by norm_num), hword]
    exact same_num hH hn (BitVec.toInt_ofInt_eq_self (by decide) hlo hhi) (by omega) (by omega)
  | S =>
    obtain ⟨n, hn, hlo, hhi⟩ := hv
    have hword := hH.toUInt16 _ n (hn.asNumber hH (by omega) (by omega)) (by omega) (by omega)
    refine reads_word (writeWord 2 (H.toUInt16 (v.asNumber H.toDoubleArith)).toNat big)
      (fun xs => .num (H.ofInt (BitVec.ofNat 16 (readWord xs big)).toNat))
      (fun _ _ => rfl) rfl (length_writeWord ..) rfl fun h => ?_
    rw [ofNat_readWord (by norm_num), hword]
    exact same_num hH hn (toNat_ofInt_of_fits hlo hhi) (by omega) (by omega)
  | i =>
    obtain ⟨n, hn, hlo, hhi⟩ := hv
    have hword := hH.toInt32 _ n (hn.asNumber hH (by omega) (by omega)) hlo hhi
    refine reads_word (writeWord 4 (H.toInt32 (v.asNumber H.toDoubleArith)).toNat big)
      (fun xs => .num (H.ofInt (BitVec.ofNat 32 (readWord xs big)).toInt))
      (fun _ _ => rfl) rfl (length_writeWord ..) rfl fun h => ?_
    rw [ofNat_readWord (by norm_num), hword]
    exact same_num hH hn (BitVec.toInt_ofInt_eq_self (by decide) hlo hhi) (by omega) (by omega)
  | I =>
    obtain ⟨n, hn, hlo, hhi⟩ := hv
    have hword := hn.asInt64_eq hH (by omega) (by omega)
    refine reads_word (writeWord 4 ((asInt64 H v).setWidth 32).toNat big)
      (fun xs => .long ((BitVec.ofNat 32 (readWord xs big)).setWidth 64))
      (fun _ _ => rfl) rfl (length_writeWord ..) rfl fun h => ?_
    rw [ofNat_readWord (by norm_num), hword]
    refine same_long hn ?_
    have hnat := toNat_ofInt_of_fits (w := 64) hlo (by omega)
    rw [BitVec.toInt_eq_toNat_of_lt] <;> simp only [BitVec.toNat_setWidth] <;> omega
  | f =>
    obtain ⟨x, hx⟩ := hv
    refine reads_word (writeWord 4 (H.toFloatBits (v.asNumber H.toDoubleArith)).toNat big)
      (fun xs => .num (H.ofFloatBits (BitVec.ofNat 32 (readWord xs big))))
      (fun _ _ => rfl) rfl (length_writeWord ..) rfl fun h => ?_
    rw [ofNat_readWord (by norm_num), hx.asNumber_eq, hH.ofFloatBits]
    exact .number hx (.num _)
  | d =>
    obtain ⟨d, hd⟩ := hv
    refine reads_word (writeWord 8 (H.toBits (v.asNumber H.toDoubleArith)).toNat big)
      (fun xs => .num (H.ofBits (BitVec.ofNat 64 (readWord xs big))))
      (fun _ _ => rfl) rfl (length_writeWord ..) rfl fun h => ?_
    rw [ofNat_readWord (by norm_num), hd.asNumber_eq, hH.ofBits]
    exact .number hd (.num _)
  | l =>
    obtain ⟨n, hn, hlo, hhi⟩ := hv
    have hword := hn.asInt64_eq hH hlo hhi
    refine reads_word (writeWord 8 (asInt64 H v).toNat big)
      (fun xs => .long (BitVec.ofNat 64 (readWord xs big)))
      (fun _ _ => rfl) rfl (length_writeWord ..) rfl fun h => ?_
    rw [ofNat_readWord (by norm_num), hword]
    exact same_long hn (BitVec.toInt_ofInt_eq_self (by decide) hlo hhi)
  | o => exact absurd rfl ho
  | _ => exact hv.elim

/-! ### One object -/

/-- A scalar or a text is its own copy, and an object is copied to the same data structure. -/
inductive Copied (fmt : Printf) (h : Heap) : OperandValue D Ref → OperandValue D Ref → Prop
  | scalar (v : OperandValue D Ref) : Copied fmt h v v
  | object {r r' : Ref} (hr : Stdlib.Serializable fmt h (.obj r))
    (hr' : Stdlib.Serializable fmt h (.obj r')) (hsame : Stdlib.SameData fmt h (.obj r) (.obj r')) :
    Copied fmt h (.other r) (.other r')

theorem Copied.extends (hh : Stdlib.Extends h h') (hv : Copied fmt h v w) : Copied fmt h' v w := by
  cases hv with
  | scalar => exact .scalar v
  | object hr hr' hsame => exact .object (hr.extends hh) (hr'.extends hh) (hsame.extends hh hr hr')

theorem Copied.trans {u : OperandValue D Ref} (hu : Copied fmt h u v) (hv : Copied fmt h v w) :
    Copied fmt h u w := by
  cases hu with
  | scalar => exact hv
  | object hr hr' hsame =>
    cases hv with
    | scalar => exact .object hr hr' hsame
    | object _ hr'' hsame' => exact .object hr hr'' (hsame.trans hsame')

theorem Copied.returned (hv : Copied fmt h v w) : Returned H fmt IsWhole h v w := by
  cases hv with
  | scalar => exact .same fun _ => .refl v
  | object hr hr' hsame => exact .object hr hr' hsame

theorem IsObject.isCell_eq {r : Ref} (hr : IsObject h r) : h.isCell (.obj r) = false := by
  rw [Heap.isCell_obj]
  unfold IsObject at hr
  cases ho : h.get? r with
  | none => rfl
  | some o =>
    rw [ho] at hr
    cases o <;> first | rfl | exact hr.elim

theorem IsObject.operandOf_eq {r : Ref} (hr : IsObject h r) (depth : ℕ) :
    operandOf H h (depth + 1) (.obj r) = .other r := by
  unfold IsObject at hr
  rw [operandOf]
  cases ho : h.get? r with
  | none => rfl
  | some o =>
    rw [ho] at hr
    cases o <;> first | rfl | exact hr.elim

theorem isObject_of_isContainer {r : Ref} (hr : Stdlib.isContainer h (.obj r) = true) :
    IsObject h r := by
  unfold IsObject
  rw [Stdlib.isContainer] at hr
  cases ho : h.get? r with
  | none =>
    rw [ho] at hr
    cases hr
  | some o =>
    rw [ho] at hr
    cases o <;> trivial

variable (H sizeof) in
/-- What can be packed can be copied, and the copy can be packed again. -/
theorem cloneOperand_spec {vm : VM} (hv : Packable fmt vm.objects v) :
    ∃ vm' w, cloneOperand H sizeof fmt vm v = some (vm', w) ∧
      Stdlib.Extends vm.objects vm'.objects ∧ Packable fmt vm'.objects w ∧
      Copied fmt vm'.objects v w := by
  cases hv with
  | scalar hcell hobject =>
    refine ⟨vm, v, ?_, .refl _, .scalar hcell hobject, .scalar v⟩
    cases v with
    | scalarCell w => exact absurd rfl (hcell w)
    | other r => exact absurd rfl (hobject r)
    | _ => rfl
  | @object r hr hser hsafe =>
    obtain ⟨vm', r', heq, hgrown, hkind, hser', hsafe', hsame⟩ :=
      Stdlib.exists_snapshot sizeof hr.isCell_eq hser hsafe
    have hobject : IsObject vm'.objects r' := by
      rcases hkind with rfl | hcont
      · exact hr.extends hgrown
      · exact isObject_of_isContainer hcont
    refine ⟨vm', .other r', ?_, hgrown, .object hobject hser' hsafe', .object (hser.extends hgrown) hser' hsame⟩
    rw [cloneOperand, heq, Option.map_some, hobject.operandOf_eq]

/-- The bytes that stand for a packed object. -/
def token (index : ℕ) : Bytes := magic ++ writeWord 4 index true

theorem unpackObjectToken_reads {index : ℕ} (hindex : index < 2 ^ 31)
    (hpacked : m.packedObjects[index]? = some w) (hw : Packable fmt m.vm.objects w)
    (hcopied : Copied fmt m.vm.objects v w) :
    Reads H fmt IsWhole (unpackObjectToken H sizeof fmt) m (token index) False [v] := by
  intro u tail s hs hoffset hdata _
  have hlen : (token index).length = 8 := by
    rw [token, List.length_append, length_writeWord]
    rfl
  have hle : u.length + 8 ≤ (u ++ (token index ++ tail)).length := by
    simp only [List.length_append]
    omega
  have hdrop : (u ++ (token index ++ tail)).drop u.length = magic ++ (writeWord 4 index true ++ tail) := by
    rw [List.drop_left, token, List.append_assoc]
  have hword : readWord (((magic ++ (writeWord 4 index true ++ tail)).drop 4).take 4) true = index := by
    have hmagic : (magic ++ (writeWord 4 index true ++ tail)).drop 4 = writeWord 4 index true ++ tail :=
      List.drop_left' rfl
    rw [hmagic, List.take_left' (length_writeWord ..), readWord_writeWord, Nat.mod_eq_of_lt (by omega)]
  have hfound : s.machine.packedObjects[index]? = some w := by
    obtain ⟨more, hmore⟩ := hs.packed
    rw [← hmore, List.getElem?_append_left (List.getElem?_eq_some_iff.1 hpacked).1]
    exact hpacked
  obtain ⟨vm', w', hclone, hgrown, -, hcopied'⟩ :=
    cloneOperand_spec H sizeof (hw.extends hs.heap)
  have hchecked := CInt.checked_of_isInt (isInt_of_lt (Nat.lt_of_le_of_lt hle hdata))
  refine ⟨⟨vm', s.machine.packedObjects⟩, [w'], ?_, ⟨hgrown, List.prefix_rfl⟩, .cons ?_ .nil⟩
  · unfold unpackObjectToken
    rw [hoffset]
    rw [Nat.cast_add, Nat.cast_ofNat] at hchecked
    dsimp only
    rw [hchecked, hdrop, hword]
    show (if ((u.length : ℤ) + 8 ≤ _ ∧ _) then _ else _) = _
    rw [if_pos ⟨by exact_mod_cast hle, List.take_left' rfl⟩, hfound]
    dsimp only
    rw [hclone, hlen]
    rfl
  · exact (((hcopied.extends hs.heap).extends hgrown).trans hcopied').returned

variable (H sizeof IsWhole) in
/-- What is packed of an object is read back as a copy. -/
theorem packObjectToken_spec {s : PackState D} (hv : Packable fmt s.machine.vm.objects v)
    (hindex : s.machine.packedObjects.length + 1 < 2 ^ 31) :
    ∃ m', packObjectToken H sizeof fmt v s =
        some ({ s with machine := m' }.push (token s.machine.packedObjects.length)) ∧
      s.machine.Grows m' ∧ m'.packedObjects.length = s.machine.packedObjects.length + 1 ∧
      Reads H fmt IsWhole (unpackObjectToken H sizeof fmt) m' (token s.machine.packedObjects.length)
        False [v] := by
  obtain ⟨vm', w, hclone, hgrown, hw, hcopied⟩ := cloneOperand_spec H sizeof hv
  refine ⟨⟨vm', s.machine.packedObjects ++ [w]⟩, ?_, ⟨hgrown, List.prefix_append _ _⟩,
    List.length_append, ?_⟩
  · unfold packObjectToken
    have hchecked := CInt.checked_of_isInt (isInt_of_lt hindex)
    rw [Nat.cast_add, Nat.cast_one] at hchecked
    dsimp only
    rw [hchecked, hclone]
    rfl
  · exact unpackObjectToken_reads (by omega) List.getElem?_concat_length hw hcopied

/-! ### The values of a field -/

variable {f : Field} {buf : Bytes}

theorem unit_pos (code : Code) : 0 < code.unit := by cases code <;> decide

variable (sizeof vs buf) in
/-- What is packed of one value of a field is read back. -/
theorem packOne_spec (hH : Faithful H IsWhole) (hv : InRange H fmt IsWhole m.vm.objects f.code v)
    (hobjects : m.packedObjects.length + f.objects 1 < 2 ^ 31) :
    ∃ m' xs, packOne H sizeof fmt f ⟨m, v :: vs, buf⟩ = some ⟨m', vs, buf ++ xs⟩ ∧ m.Grows m' ∧
      xs.length = f.code.unit ∧ m'.packedObjects.length = m.packedObjects.length + f.objects 1 ∧
      Reads H fmt IsWhole (fun data => unpackOne H sizeof fmt data f) m' xs False [v] := by
  have hx : f.code ≠ .x := by
    intro hx
    rw [hx] at hv
    exact hv
  unfold packOne
  rw [if_neg hx]
  by_cases ho : f.code = .o
  · rw [Field.objects, if_pos ho] at hobjects ⊢
    rw [ho] at hv ⊢
    obtain ⟨m', hpack, hgrows, hlen, hreads⟩ :=
      packObjectToken_spec H sizeof IsWhole (s := ⟨m, vs, buf⟩) hv hobjects
    refine ⟨m', _, hpack, hgrows, ?_, hlen, hreads.congr fun u tail s _ _ => ?_⟩
    · rw [token, List.length_append, length_writeWord]
      rfl
    · rw [unpackOne, ho]
  · obtain ⟨hlen, hreads⟩ := unpackOne_reads sizeof m hH ho hv
    rw [Field.objects, if_neg ho]
    exact ⟨m, _, if_neg ho, .refl m, hlen, rfl, hreads⟩

variable (sizeof buf) in
/-- What is packed of values of a field is read back. -/
theorem packRepeat_spec (hH : Faithful H IsWhole) (rest : List (OperandValue D Ref))
    (hvs : ∀ v ∈ vs, InRange H fmt IsWhole m.vm.objects f.code v)
    (hobjects : m.packedObjects.length + f.objects vs.length < 2 ^ 31) :
    ∃ m' xs, packRepeat H sizeof fmt f vs.length ⟨m, vs ++ rest, buf⟩ = some ⟨m', rest, buf ++ xs⟩ ∧
      m.Grows m' ∧ xs.length = vs.length * f.code.unit ∧
      m'.packedObjects.length = m.packedObjects.length + f.objects vs.length ∧
      Reads H fmt IsWhole (fun data => unpackRepeat H sizeof fmt data f vs.length) m' xs False vs := by
  induction vs generalizing m buf with
  | nil =>
    refine ⟨m, [], by rw [List.append_nil]; rfl, .refl m, (Nat.zero_mul _).symm, ?_, .nil⟩
    unfold Field.objects
    split_ifs <;> rfl
  | cons v vs ih =>
    have hcount : f.objects (v :: vs).length = f.objects 1 + f.objects vs.length := by
      unfold Field.objects
      split_ifs
      · exact Nat.add_comm _ _
      · rfl
    rw [hcount] at hobjects ⊢
    obtain ⟨m₁, xs, hpack, hgrows, hxs, hlen, hreads⟩ :=
      packOne_spec sizeof (vs ++ rest) buf hH (hvs v List.mem_cons_self)
        (by omega)
    obtain ⟨m₂, ys, hpack', hgrows', hys, hlen', hreads'⟩ := ih (m := m₁) (buf ++ xs)
      (fun w hw => (hvs w (List.mem_cons_of_mem _ hw)).extends hgrows.heap) (by omega)
    refine ⟨m₂, xs ++ ys, ?_, hgrows.trans hgrows', ?_, by omega, ?_⟩
    · rw [List.length_cons, List.cons_append, packRepeat, hpack]
      show packRepeat H sizeof fmt f vs.length ⟨m₁, vs ++ rest, buf ++ xs⟩ = _
      rw [hpack', List.append_assoc]
    · rw [List.length_append, hxs, hys, List.length_cons, Nat.succ_mul, Nat.add_comm]
    · exact ((hreads.mono hgrows').bind hreads').guarded (by
        rw [List.length_append, hxs]
        exact Nat.add_pos_left (unit_pos _) _)

/-- Bytes that stand for no value are passed over. -/
theorem packRepeat_skip (hx : f.code = .x) (n : ℕ) :
    packRepeat H sizeof fmt f n ⟨m, vs, buf⟩ = some ⟨m, vs, buf ++ List.replicate n 0⟩ := by
  induction n generalizing buf with
  | zero => rw [List.replicate_zero, List.append_nil]; rfl
  | succ n ih =>
    have hone : packOne H sizeof fmt f ⟨m, vs, buf⟩ = some ⟨m, vs, buf ++ [0]⟩ := by
      unfold packOne
      rw [hx]
      rfl
    rw [packRepeat, hone]
    show packRepeat H sizeof fmt f n ⟨m, vs, buf ++ [0]⟩ = _
    rw [ih, List.append_assoc]
    rfl

variable (sizeof) in
theorem unpackRepeat_skip (hx : f.code = .x) (n : ℕ) :
    Reads H fmt IsWhole (fun data => unpackRepeat H sizeof fmt data f n) m (List.replicate n 0) False
      [] := by
  induction n with
  | zero => exact .nil
  | succ n ih =>
    have hone : Reads H fmt IsWhole (fun data => unpackOne H sizeof fmt data f) m [0] False [] := by
      intro u tail s _ hoffset _ _
      refine ⟨s.machine, [], ?_, .refl _, .nil⟩
      show unpackOne H sizeof fmt _ f s = _
      rw [unpackOne, hx, List.append_nil, ← hoffset]
      rfl
    exact (hone.bind ih).guarded (Nat.succ_pos _)

/-! ### Texts -/

/-- A text in as many bytes as there are, and in more. -/
theorem map_getD_range (text : Bytes) (n : ℕ) :
    (List.range (text.length + n)).map (fun i => text.getD i 0) = text ++ List.replicate n 0 := by
  refine List.ext_getElem (by simp) fun i hi _ => ?_
  rw [List.length_map, List.length_range] at hi
  rw [List.getElem_map, List.getElem_range, List.getD_eq_getElem?_getD]
  by_cases h : i < text.length
  · rw [List.getElem_append_left h, List.getElem?_eq_getElem h, Option.getD_some]
  · rw [List.getElem_append_right (Nat.le_of_not_lt h), List.getElem_replicate,
      List.getElem?_eq_none (Nat.le_of_not_lt h), Option.getD_none]

/-- What `pack` does with a text. -/
theorem packText_eq {text : Bytes} (hlen : text.length < 2 ^ 31) :
    packText f ⟨m, .string text :: vs, buf⟩ =
      some (let limit : ℤ := if f.count = -1 then text.length else f.count
        let s : PackState D := ⟨m, vs, buf ++ (List.range limit.toNat).map fun i => text.getD i 0⟩
        if f.code = .z ∨ f.count = -1 then s.push [0] else s) := by
  unfold packText PackState.nextArg
  simp only [List.headD_cons, List.tail_cons, textOf]
  rw [CInt.checked_of_isInt (isInt_of_lt hlen)]
  rfl

variable (H fmt IsWhole m vs buf) in
/-- A text with the zero that ends it. -/
theorem packText_star {text : Bytes} (hcount : f.count = -1) (hzero : 0 ∉ text)
    (hlen : text.length < 2 ^ 31) :
    packText f ⟨m, .string text :: vs, buf⟩ = some ⟨m, vs, buf ++ (text ++ [0])⟩ ∧
      Reads H fmt IsWhole (fun data => unpackText data f) m (text ++ [0]) False [.string text] := by
  constructor
  · have hmap := map_getD_range text 0
    rw [Nat.add_zero, List.replicate_zero, List.append_nil] at hmap
    rw [packText_eq hlen]
    dsimp only
    rw [if_pos hcount, if_pos (.inr hcount), Int.toNat_natCast, hmap, PackState.push, List.append_assoc]
  · intro u tail s _ hoffset hdata _
    refine ⟨s.machine, [.string text], ?_, .refl _, .cons (.same fun _ => .refl _) .nil⟩
    have hcstring : cstring ((u ++ (text ++ [0] ++ tail)).drop u.length) = text := by
      rw [List.drop_left, List.append_assoc, cstring_append hzero]
      exact List.append_nil _
    have hlt : u.length + text.length < (u ++ (text ++ [0] ++ tail)).length := by
      simp only [List.length_append, List.length_singleton]
      omega
    dsimp only
    unfold unpackText
    rw [if_pos hcount, hoffset, hcstring]
    dsimp only
    rw [if_pos hlt, List.length_append, List.length_singleton, Nat.add_assoc]

variable (H fmt IsWhole m vs buf) in
/-- A text with zeros up to the count. -/
theorem packText_counted {text : Bytes} (hcode : f.code = .Z) (hcount : 1 ≤ f.count) (hzero : 0 ∉ text)
    (hlen : (text.length : ℤ) ≤ f.count) (hwidth : f.count.toNat < 2 ^ 31) :
    ∃ xs, packText f ⟨m, .string text :: vs, buf⟩ = some ⟨m, vs, buf ++ xs⟩ ∧
      xs.length = f.count.toNat ∧
      Reads H fmt IsWhole (fun data => unpackText data f) m xs False [.string text] := by
  obtain ⟨n, hn⟩ : ∃ n : ℕ, f.count.toNat = text.length + n := ⟨f.count.toNat - text.length, by omega⟩
  have hstar : f.count ≠ -1 := by omega
  refine ⟨text ++ List.replicate n 0, ?_, ?_, ?_⟩
  · rw [packText_eq (by omega)]
    dsimp only
    rw [if_neg hstar, hn, map_getD_range, if_neg]
    rintro (hz | hone)
    · rw [hcode] at hz
      cases hz
    · exact hstar hone
  · rw [List.length_append, List.length_replicate, hn]
  · intro u tail s _ hoffset hdata _
    refine ⟨s.machine, [.string text], ?_, .refl _, .cons (.same fun _ => .refl _) .nil⟩
    have hxs : (text ++ List.replicate n (0 : UInt8)).length = f.count.toNat := by
      rw [List.length_append, List.length_replicate, hn]
    have hcstring : cstring (text ++ List.replicate n 0) = text := by
      rw [cstring_append hzero]
      cases n with
      | zero => exact List.append_nil _
      | succ n => exact List.append_nil _
    have hchecked : CInt.checked ((u.length : ℤ) + f.count) = some (u.length + f.count) := by
      refine CInt.checked_of_isInt ⟨by omega, ?_⟩
      simp only [List.length_append] at hdata hxs
      omega
    dsimp only
    unfold unpackText
    rw [if_neg hstar, hoffset, hchecked]
    show some (⟨_, _, _⟩ : UnpackState D) = _
    rw [List.drop_left, ← hxs, List.take_left, hcstring]
    congr 2
    omega

/-! ### Hexadecimal texts -/

theorem mem_hexDigits {c : UInt8} (hc : isLowerHex c = true) : c ∈ hexDigits := by
  have hall : ∀ n < 256, isLowerHex (.ofNat n) = true → UInt8.ofNat n ∈ hexDigits := by
    decide +kernel
  rw [← UInt8.ofNat_toNat (x := c)] at hc ⊢
  exact hall _ c.toNat_lt hc

/-- Two digits and their byte. -/
theorem hexPair_byteOfHex {code : Code} (hcode : code = .h ∨ code = .H) {a b : UInt8}
    (ha : isLowerHex a = true) (hb : isLowerHex b = true) :
    hexPair code (byteOfHex code a b) = [a, b] := by
  have hall : ∀ code ∈ [Code.h, .H], ∀ a ∈ hexDigits, ∀ b ∈ hexDigits,
      hexPair code (byteOfHex code a b) = [a, b] := by decide +kernel
  exact hall code (by simpa using hcode) a (mem_hexDigits ha) b (mem_hexDigits hb)

/-- The digits of the bytes are those of the text. -/
theorem flatMap_hexBytes {code : Code} (hcode : code = .h ∨ code = .H) {text : Bytes}
    (htext : ∀ c ∈ text, isLowerHex c = true) (heven : text.length % 2 = 0) :
    (hexBytes code text).length = text.length / 2 ∧
      (hexBytes code text).flatMap (hexPair code) = text := by
  fun_induction hexBytes code text with
  | case1 a b rest ih =>
    obtain ⟨ha, hb, hrest⟩ : isLowerHex a = true ∧ isLowerHex b = true ∧
      ∀ c ∈ rest, isLowerHex c = true := by simpa using htext
    obtain ⟨hlen, hflat⟩ := ih hrest (by simp only [List.length_cons] at heven; omega)
    constructor
    · simp only [List.length_cons, hlen]
      omega
    · rw [List.flatMap_cons, hexPair_byteOfHex hcode ha hb, hflat]
      rfl
  | case2 text hpairs =>
    cases text with
    | nil => exact ⟨rfl, rfl⟩
    | cons a text =>
      cases text with
      | nil => cases heven
      | cons b rest => exact absurd rfl (hpairs a b rest)

variable (H fmt IsWhole m vs buf) in
theorem packHex_spec {text : Bytes} (hcode : f.code = .h ∨ f.code = .H)
    (htext : ∀ c ∈ text, isLowerHex c = true) (heven : text.length % 2 = 0)
    (hlen : text.length < 2 ^ 31) (hcount : f.count ≠ -1 → (text.length : ℤ) = 2 * f.count) :
    packHex f ⟨m, .string text :: vs, buf⟩ = .ok ⟨m, vs, buf ++ hexBytes f.code text⟩ ∧
      Reads H fmt IsWhole (fun data => unpackHex data f) m (hexBytes f.code text) (f.count = -1)
        [.string text] := by
  obtain ⟨hbytes, hflat⟩ := flatMap_hexBytes hcode htext heven
  constructor
  · unfold packHex PackState.nextArg
    simp only [List.headD_cons, List.tail_cons, textOf]
    rw [CInt.checked_of_isInt (isInt_of_lt hlen)]
    dsimp only
    rw [if_neg (by omega)]
    rfl
  · intro u tail s _ hoffset hdata hlast
    refine ⟨s.machine, [.string text], ?_, .refl _, .cons (.same fun _ => .refl _) .nil⟩
    have hlimit : (if f.count = -1 then (u ++ (hexBytes f.code text ++ tail)).length - u.length
        else f.count.toNat) = (hexBytes f.code text).length := by
      split_ifs with hstar
      · rw [hlast hstar, List.append_nil, List.length_append, Nat.add_sub_cancel_left]
      · have := hcount hstar
        omega
    have hchecked : CInt.checked (2 * ((hexBytes f.code text).length : ℤ)) =
        some (2 * ((hexBytes f.code text).length : ℤ)) := CInt.checked_of_isInt ⟨by omega, by omega⟩
    dsimp only
    unfold unpackHex
    rw [hoffset, hlimit, List.drop_left]
    dsimp only
    rw [List.take_left, hchecked, hflat]
    rfl

/-! ### A field -/

/-- The repetitions of a field that is packed. -/
def packRepeats (f : Field) (s : PackState D) : ℕ :=
  if f.count = -1 then s.values.length else f.count.toNat

/-- The repetitions of a field that is unpacked. -/
def unpackRepeats (f : Field) (data : Bytes) (s : UnpackState D) : ℕ :=
  if f.count = -1 then (data.length - s.offset) / f.code.unit else f.count.toNat

theorem unpackRepeats_eq {u tail : Bytes} {s : UnpackState D} {n : ℕ} (hoffset : s.offset = u.length)
    (hxs : xs.length = n * f.code.unit) (hcount : f.count = -1 ∨ (n : ℤ) = f.count)
    (htail : f.count = -1 → tail = []) : unpackRepeats f (u ++ (xs ++ tail)) s = n := by
  unfold unpackRepeats
  split_ifs with hstar
  · rw [htail hstar, hoffset, List.append_nil, List.length_append, Nat.add_sub_cancel_left, hxs,
      Nat.mul_div_cancel _ (unit_pos _)]
  · have := hcount.resolve_left hstar
    omega

/-- A field of values of one letter. -/
theorem packValues_spec (hH : Faithful H IsWhole)
    (hpack : ∀ s, packField H sizeof fmt f s =
      orUndefined (packRepeat H sizeof fmt f (packRepeats f s) s))
    (hunpack : ∀ data s, unpackField H sizeof fmt data f s =
      unpackRepeat H sizeof fmt data f (unpackRepeats f data s) s)
    (hwidth : f.width vs = vs.length * f.code.unit) (hgreedy : f.count = -1 → f.IsGreedy)
    (hcount : f.count = -1 ∨ (vs.length : ℤ) = f.count)
    (hvs : ∀ v ∈ vs, InRange H fmt IsWhole m.vm.objects f.code v) {rest : List (OperandValue D Ref)}
    (hrest : f.IsGreedy → rest = [])
    (hobjects : m.packedObjects.length + f.objects vs.length < 2 ^ 31) :
    ∃ m' xs, packField H sizeof fmt f ⟨m, vs ++ rest, buf⟩ = .ok ⟨m', rest, buf ++ xs⟩ ∧ m.Grows m' ∧
      xs.length = f.width vs ∧ m'.packedObjects.length = m.packedObjects.length + f.objects vs.length ∧
      Reads H fmt IsWhole (fun data => unpackField H sizeof fmt data f) m' xs f.IsGreedy vs := by
  obtain ⟨m', xs, hrepeat, hgrows, hxs, hlen, hreads⟩ :=
    packRepeat_spec sizeof buf hH rest hvs hobjects
  have hrepeats : packRepeats f ⟨m, vs ++ rest, buf⟩ = vs.length := by
    unfold packRepeats
    split_ifs with hstar
    · rw [hrest (hgreedy hstar), List.append_nil]
    · have := hcount.resolve_left hstar
      omega
  refine ⟨m', xs, ?_, hgrows, hxs.trans hwidth.symm, hlen, ?_⟩
  · rw [hpack, hrepeats, hrepeat]
    rfl
  · refine hreads.anywhere.congr fun u tail s hoffset hlast => ?_
    rw [hunpack, unpackRepeats_eq hoffset hxs hcount fun hstar => hlast (hgreedy hstar)]

theorem objects_of_ne (ho : f.code ≠ .o) (n : ℕ) : f.objects n = 0 := if_neg ho

theorem packField_of_text (hcode : f.code = .z ∨ f.code = .Z) (s : PackState D) :
    packField H sizeof fmt f s = orUndefined (packText f s) := by
  unfold packField
  rcases hcode with h | h <;> rw [h]

theorem unpackField_of_text (hcode : f.code = .z ∨ f.code = .Z) (data : Bytes) (s : UnpackState D) :
    unpackField H sizeof fmt data f s = unpackText data f s := by
  unfold unpackField
  rcases hcode with h | h <;> rw [h]

theorem packField_of_hex (hcode : f.code = .h ∨ f.code = .H) (s : PackState D) :
    packField H sizeof fmt f s = packHex f s := by
  unfold packField
  rcases hcode with h | h <;> rw [h]

theorem unpackField_of_hex (hcode : f.code = .h ∨ f.code = .H) (data : Bytes) (s : UnpackState D) :
    unpackField H sizeof fmt data f s = unpackHex data f s := by
  unfold unpackField
  rcases hcode with h | h <;> rw [h]

variable (H sizeof fmt IsWhole m vs buf) in
/-- A field of a text. -/
theorem packTextField_spec (hcode : f.code = .z ∨ f.code = .Z) {text : Bytes} (hf : f.WellFormed)
    (hzero : 0 ∉ text) (hcount : f.count = -1 ∨ f.code = .Z ∧ (text.length : ℤ) ≤ f.count)
    (hwidth : f.width [(.string text : OperandValue D Ref)] < 2 ^ 31) :
    ∃ xs, packField H sizeof fmt f ⟨m, .string text :: vs, buf⟩ = .ok ⟨m, vs, buf ++ xs⟩ ∧
      xs.length = f.width [(.string text : OperandValue D Ref)] ∧
      Reads H fmt IsWhole (fun data => unpackField H sizeof fmt data f) m xs last [.string text] := by
  have hlen : f.width [(.string text : OperandValue D Ref)] =
      if f.count = -1 then text.length + 1 else f.count.toNat := by
    unfold Field.width
    rcases hcode with h | h <;> rw [h] <;> rfl
  rw [hlen] at hwidth ⊢
  by_cases hstar : f.count = -1
  · rw [if_pos hstar] at hwidth ⊢
    obtain ⟨heq, hreads⟩ := packText_star H fmt IsWhole m vs buf hstar hzero (by omega)
    refine ⟨text ++ [0], ?_, List.length_append, hreads.anywhere.congr fun _ _ s _ _ =>
      unpackField_of_text hcode _ s⟩
    rw [packField_of_text hcode, heq]
    rfl
  · rw [if_neg hstar] at hwidth ⊢
    obtain ⟨hZ, hle⟩ := hcount.resolve_left hstar
    obtain ⟨xs, heq, hxs, hreads⟩ := packText_counted H fmt IsWhole m vs buf hZ
      (hf.2.resolve_left hstar) hzero hle hwidth
    refine ⟨xs, ?_, hxs, hreads.anywhere.congr fun _ _ s _ _ => unpackField_of_text hcode _ s⟩
    rw [packField_of_text hcode, heq]
    rfl

variable (H sizeof fmt IsWhole m vs buf) in
/-- A field of a hexadecimal text. -/
theorem packHexField_spec (hcode : f.code = .h ∨ f.code = .H) {text : Bytes}
    (htext : ∀ c ∈ text, isLowerHex c = true) (heven : text.length % 2 = 0)
    (hlen : text.length < 2 ^ 31) (hcount : f.count ≠ -1 → (text.length : ℤ) = 2 * f.count) :
    ∃ xs, packField H sizeof fmt f ⟨m, .string text :: vs, buf⟩ = .ok ⟨m, vs, buf ++ xs⟩ ∧
      xs.length = f.width [(.string text : OperandValue D Ref)] ∧
      Reads H fmt IsWhole (fun data => unpackField H sizeof fmt data f) m xs f.IsGreedy
        [.string text] := by
  obtain ⟨heq, hreads⟩ := packHex_spec H fmt IsWhole m vs buf hcode htext heven hlen hcount
  have hgreedy : f.count = -1 → f.IsGreedy := by
    intro hstar
    refine ⟨hstar, ?_, ?_⟩ <;> rcases hcode with h | h <;> rw [h] <;> decide
  refine ⟨hexBytes f.code text, ?_, ?_, ?_⟩
  · rw [packField_of_hex hcode, heq]
  · rw [(flatMap_hexBytes hcode htext heven).1]
    unfold Field.width
    rcases hcode with h | h <;> rw [h] <;> rfl
  · intro u tail s hs hoffset hdata hlast
    dsimp only
    rw [unpackField_of_hex hcode]
    exact hreads u tail s hs hoffset hdata fun hstar => hlast (hgreedy hstar)

variable (H sizeof fmt IsWhole m vs buf) in
/-- A field of bytes that are passed over. -/
theorem packSkip_spec (hx : f.code = .x) (hf : f.WellFormed) (hvs : f.IsGreedy → vs = []) :
    ∃ xs, packField H sizeof fmt f ⟨m, vs, buf⟩ = .ok ⟨m, vs, buf ++ xs⟩ ∧
      xs.length = f.width ([] : List (OperandValue D Ref)) ∧
      Reads H fmt IsWhole (fun data => unpackField H sizeof fmt data f) m xs f.IsGreedy [] := by
  have hgreedy : f.count = -1 → f.IsGreedy := by
    intro hstar
    refine ⟨hstar, ?_, ?_⟩ <;> rw [hx] <;> decide
  have hrepeats : packRepeats f ⟨m, vs, buf⟩ = f.count.toNat := by
    unfold packRepeats
    split_ifs with hstar
    · rw [hvs (hgreedy hstar), hstar]
      rfl
    · rfl
  have hunit : f.code.unit = 1 := by rw [hx]; rfl
  refine ⟨List.replicate f.count.toNat 0, ?_, ?_, ?_⟩
  · have hpack : packField H sizeof fmt f ⟨m, vs, buf⟩ =
        orUndefined (packRepeat H sizeof fmt f (packRepeats f ⟨m, vs, buf⟩) ⟨m, vs, buf⟩) := by
      unfold packField
      rw [hx]
      rfl
    rw [hpack, hrepeats, packRepeat_skip hx]
    rfl
  · rw [List.length_replicate, Field.width, hx]
  · refine (unpackRepeat_skip sizeof hx f.count.toNat).anywhere.congr fun u tail s hoffset hlast => ?_
    have hunpack : ∀ data, unpackField H sizeof fmt data f s =
        unpackRepeat H sizeof fmt data f (unpackRepeats f data s) s := by
      intro data
      unfold unpackField unpackRepeats
      rw [hx]
    have hcount : f.count = -1 ∨ (f.count.toNat : ℤ) = f.count := hf.2.imp_right fun h => by omega
    rw [hunpack, unpackRepeats_eq hoffset (by rw [List.length_replicate, hunit, Nat.mul_one]) hcount
      fun hstar => hlast (hgreedy hstar)]

variable (sizeof buf) in
/-- **The values of a field are packed, and read back from their bytes.** -/
theorem packField_spec (hH : Faithful H IsWhole) (hf : f.WellFormed)
    (htakes : f.Takes H fmt IsWhole m.vm.objects vs) (rest : List (OperandValue D Ref))
    (hrest : f.IsGreedy → rest = []) (hwidth : f.width vs < 2 ^ 31)
    (hobjects : m.packedObjects.length + f.objects vs.length < 2 ^ 31) :
    ∃ m' xs, packField H sizeof fmt f ⟨m, vs ++ rest, buf⟩ = .ok ⟨m', rest, buf ++ xs⟩ ∧ m.Grows m' ∧
      xs.length = f.width vs ∧ m'.packedObjects.length = m.packedObjects.length + f.objects vs.length ∧
      Reads H fmt IsWhole (fun data => unpackField H sizeof fmt data f) m' xs f.IsGreedy vs := by
  have hsame : ∀ {xs us}, f.code ≠ .o →
      packField H sizeof fmt f ⟨m, us, buf⟩ = .ok ⟨m, rest, buf ++ xs⟩ → xs.length = f.width vs →
      Reads H fmt IsWhole (fun data => unpackField H sizeof fmt data f) m xs f.IsGreedy vs →
      ∃ m' xs, packField H sizeof fmt f ⟨m, us, buf⟩ = .ok ⟨m', rest, buf ++ xs⟩ ∧ m.Grows m' ∧
        xs.length = f.width vs ∧
        m'.packedObjects.length = m.packedObjects.length + f.objects vs.length ∧
        Reads H fmt IsWhole (fun data => unpackField H sizeof fmt data f) m' xs f.IsGreedy vs :=
    fun ho hpack hxs hreads =>
      ⟨m, _, hpack, .refl m, hxs, by rw [objects_of_ne ho, Nat.add_zero], hreads⟩
  obtain ⟨code, count, big⟩ := f
  cases code with
  | z =>
    obtain ⟨text, rfl, hzero, hstar⟩ := htakes
    obtain ⟨xs, hpack, hxs, hreads⟩ := packTextField_spec H sizeof fmt IsWhole m rest buf
      (.inl rfl) hf hzero (.inl hstar) hwidth
    exact hsame (by simp) hpack hxs hreads
  | Z =>
    obtain ⟨text, rfl, hzero, hcount⟩ := htakes
    obtain ⟨xs, hpack, hxs, hreads⟩ := packTextField_spec H sizeof fmt IsWhole m rest buf
      (.inr rfl) hf hzero
      (hcount.imp_right fun h => ⟨rfl, h⟩) hwidth
    exact hsame (by simp) hpack hxs hreads
  | h =>
    obtain ⟨text, rfl, htext, heven, hlen, hcount⟩ := htakes
    obtain ⟨xs, hpack, hxs, hreads⟩ := packHexField_spec H sizeof fmt IsWhole m rest buf
      (.inl rfl) htext heven hlen
      (fun hstar => by rwa [if_neg hstar] at hcount)
    exact hsame (by simp) hpack hxs hreads
  | H =>
    obtain ⟨text, rfl, htext, heven, hlen, hcount⟩ := htakes
    obtain ⟨xs, hpack, hxs, hreads⟩ := packHexField_spec H sizeof fmt IsWhole m rest buf
      (.inr rfl) htext heven hlen
      (fun hstar => by rwa [if_neg hstar] at hcount)
    exact hsame (by simp) hpack hxs hreads
  | x =>
    cases htakes
    obtain ⟨xs, hpack, hxs, hreads⟩ := packSkip_spec H sizeof fmt IsWhole m rest buf rfl hf hrest
    exact hsame (by simp) hpack hxs hreads
  | other => exact absurd rfl hf.1
  | _ =>
    exact packValues_spec hH (fun _ => rfl) (fun _ _ => rfl) rfl (fun hstar => ⟨hstar, by simp, by simp⟩)
      htakes.1 htakes.2 hrest hobjects

/-! ### A format -/

/-- Only a field that takes all that is left may take nothing. -/
theorem eq_nil_of_width (hf : f.WellFormed) (htakes : f.Takes H fmt IsWhole h vs)
    (hwidth : f.width vs = 0) : f.IsGreedy ∧ vs = [] := by
  have hvalues : ∀ {f : Field}, (f.count = -1 ∨ (vs.length : ℤ) = f.count) → f.WellFormed →
      vs.length * f.code.unit = 0 → f.code ≠ .z → f.code ≠ .Z → f.IsGreedy ∧ vs = [] := by
    intro f hcount hf hzero hz hZ
    have hnil := (Nat.mul_eq_zero.1 hzero).resolve_right (unit_pos f.code).ne'
    refine ⟨⟨hf.2.resolve_right fun hone => ?_, hz, hZ⟩, List.length_eq_zero_iff.1 hnil⟩
    omega
  obtain ⟨code, count, big⟩ := f
  have hcount : count = -1 ∨ 1 ≤ count := hf.2
  cases code with
  | z =>
    obtain ⟨text, rfl, -, hstar⟩ := htakes
    have hstar : count = -1 := hstar
    simp [Field.width, hstar] at hwidth
  | Z =>
    obtain ⟨text, rfl, -, -⟩ := htakes
    simp only [Field.width] at hwidth
    split_ifs at hwidth
    omega
  | h | H =>
    obtain ⟨text, rfl, -, heven, -, hlen⟩ := htakes
    have hnil : text.length = 0 := by
      have hhalf : text.length / 2 = 0 := hwidth
      omega
    split_ifs at hlen with hstar
    · exact absurd (List.length_eq_zero_iff.1 hnil) hlen
    · have := hcount.resolve_left hstar
      dsimp only at hlen
      omega
  | x =>
    have hzero : count.toNat = 0 := hwidth
    exact ⟨⟨hcount.resolve_right (by omega), by simp, by simp⟩, htakes⟩
  | other => exact absurd rfl hf.1
  | _ => exact hvalues htakes.1 hf hwidth (by simp) (by simp)

theorem Field.Takes.extends (hh : Stdlib.Extends h h') (htakes : f.Takes H fmt IsWhole h vs) :
    f.Takes H fmt IsWhole h' vs := by
  obtain ⟨code, count, big⟩ := f
  cases code with
  | z | Z | h | H | x => exact htakes
  | _ => exact ⟨htakes.1, fun v hv => (htakes.2 v hv).extends hh⟩

theorem Plan.Suits.extends {plan : Plan D} (hh : Stdlib.Extends h h')
    (hsuits : plan.Suits H fmt IsWhole h) : plan.Suits H fmt IsWhole h' :=
  ⟨hsuits.wellFormed, hsuits.last, fun p hp => (hsuits.takes p hp).extends hh⟩

theorem Plan.Suits.tail {plan : Plan D} {p : Field × List (OperandValue D Ref)}
    (hsuits : Plan.Suits H fmt IsWhole h (p :: plan)) : plan.Suits H fmt IsWhole h := by
  refine ⟨fun q hq => hsuits.wellFormed q (List.mem_cons_of_mem _ hq), fun q hq => ?_,
    fun q hq => hsuits.takes q (List.mem_cons_of_mem _ hq)⟩
  cases plan with
  | nil => cases hq
  | cons r plan => exact hsuits.last q (List.mem_cons_of_mem _ hq)

variable (sizeof buf) in
/-- **The fields of a plan are packed, and read back.** -/
theorem packFields_spec (hH : Faithful H IsWhole) {plan : Plan D}
    (hsuits : plan.Suits H fmt IsWhole m.vm.objects) (hbytes : plan.bytes < 2 ^ 31)
    (hobjects : m.packedObjects.length + plan.objects < 2 ^ 31) :
    ∃ m' xs, packFields H sizeof fmt (plan.map Prod.fst) ⟨m, plan.flatMap Prod.snd, buf⟩ =
        .ok ⟨m', [], buf ++ xs⟩ ∧ m.Grows m' ∧ xs.length = plan.bytes ∧
      Reads H fmt IsWhole (fun data => unpackFields H sizeof fmt data (plan.map Prod.fst)) m' xs True
        (plan.flatMap Prod.snd) := by
  induction plan generalizing m buf with
  | nil => exact ⟨m, [], by rw [List.append_nil]; rfl, .refl m, rfl, Reads.nil⟩
  | cons p plan ih =>
    obtain ⟨f, vs⟩ := p
    have hf : f.WellFormed := hsuits.wellFormed (f, vs) List.mem_cons_self
    have htakes : f.Takes H fmt IsWhole m.vm.objects vs := hsuits.takes (f, vs) List.mem_cons_self
    have hgreedy : f.IsGreedy → plan = [] := by
      intro hg
      cases plan with
      | nil => rfl
      | cons q plan => exact absurd hg (hsuits.last (f, vs) List.mem_cons_self)
    have hb : f.width vs + Plan.bytes plan < 2 ^ 31 := by
      simpa [Plan.bytes] using hbytes
    have ho : m.packedObjects.length + (f.objects vs.length + Plan.objects plan) < 2 ^ 31 := by
      simpa [Plan.objects] using hobjects
    obtain ⟨m₁, xs, hpack, hgrows, hxs, hlen, hreads⟩ := packField_spec sizeof buf hH hf htakes
      (plan.flatMap Prod.snd) (fun hg => by rw [hgreedy hg]; rfl) (by omega) (by omega)
    have hsuits' := hsuits.tail.extends hgrows.heap
    obtain ⟨m₂, ys, hpack', hgrows', hys, hreads'⟩ := ih (m := m₁) (buf ++ xs) hsuits' (by omega)
      (by omega)
    refine ⟨m₂, xs ++ ys, ?_, hgrows.trans hgrows', ?_, ?_⟩
    · rw [List.map_cons, packFields, List.flatMap_cons, hpack]
      show packFields H sizeof fmt (plan.map Prod.fst) ⟨m₁, plan.flatMap Prod.snd, buf ++ xs⟩ = _
      rw [hpack', List.append_assoc]
    · rw [List.length_append, hxs, hys]
      simp [Plan.bytes]
    · have hreads := hreads.mono hgrows'
      by_cases hg : f.IsGreedy
      · obtain rfl := hgreedy hg
        obtain rfl := List.length_eq_zero_iff.1 hys
        have hend : Reads H fmt IsWhole (fun data s => (unpackField H sizeof fmt data f s).bind
            (unpackFields H sizeof fmt data [])) m₂ xs True vs := by
          refine (hreads.imp fun _ => trivial).congr fun u tail s _ _ => ?_
          exact Option.bind_fun_some _
        rw [List.append_nil]
        simp only [List.flatMap_cons, List.flatMap_nil, List.append_nil]
        exact hend.guardedEnd fun hnil =>
          (eq_nil_of_width hf htakes (by rw [← hxs, hnil]; rfl)).2
      · have hpos : 0 < (xs ++ ys).length := by
          rw [List.length_append, hxs]
          exact Nat.add_pos_left (Nat.pos_of_ne_zero fun h0 => hg (eq_nil_of_width hf htakes h0).1) _
        exact ((hreads.imp hg).bind hreads').guarded hpos

/-- `unpack` of what `pack` makes of the arguments gives these values, and reads all of the bytes. -/
def RoundTrip (H : Host D) (sizeof : ObjType → ℕ) (fmt : Printf) (IsWhole : D → ℤ → Prop)
    (m : Machine D) (format : OperandValue D Ref) (args values : List (OperandValue D Ref)) : Prop :=
  ∃ m' data s, pack H sizeof fmt m (format :: args) = .ok (m', .string data) ∧
    unpackAll H sizeof fmt m' format data = some s ∧ s.offset = data.length ∧
    List.Forall₂ (SameValue H fmt IsWhole s.machine.vm.objects) values s.values

section Format

variable {fs : List Field} {format : OperandValue D Ref} {args : List (OperandValue D Ref)}

/-- `pack` packs one field after the other. -/
theorem pack_eq (hlength : (formatText format).length < 2 ^ 31)
    (hformat : fields H (formatText format) = some fs)
    (hpack : packFields H sizeof fmt fs ⟨m, passed H m args, []⟩ = .ok ⟨m', vs, xs⟩)
    (hxs : xs.length < 2 ^ 32) : pack H sizeof fmt m (format :: args) = .ok (m', .string xs) := by
  unfold pack
  dsimp only
  rw [CInt.checked_of_isInt (isInt_of_lt hlength), packLoop_eq _ hformat, hpack]
  show Except.ok (m', OperandValue.string (xs.take (xs.length % 2 ^ 32))) = _
  rw [Nat.mod_eq_of_lt hxs, List.take_length]

variable (format) in
/-- `unpack` gives the values that are read back. -/
theorem unpackAll_of_reads (hlength : (formatText format).length < 2 ^ 31)
    (hformat : fields H (formatText format) = some fs) (hxs : xs.length < 2 ^ 31)
    (hreads : Reads H fmt IsWhole (fun data => unpackFields H sizeof fmt data fs) m xs True vs)
    (hm : m.Grows m') :
    ∃ M ws, unpackAll H sizeof fmt m' format xs = some ⟨M, xs.length, ws⟩ ∧ m'.Grows M ∧
      List.Forall₂ (Returned H fmt IsWhole M.vm.objects) vs ws := by
  obtain ⟨M, ws, hunpack, hM, hws⟩ := hreads [] [] ⟨m', 0, []⟩ hm rfl (by simpa using hxs) fun _ => rfl
  refine ⟨M, ws, ?_, hM, hws⟩
  unfold unpackAll
  dsimp only
  rw [CInt.checked_of_isInt (isInt_of_lt hxs), CInt.checked_of_isInt (isInt_of_lt hlength)]
  show unpackLoop H sizeof fmt xs _ true _ ⟨m', 0, []⟩ = _
  rw [unpackLoop_eq _ hformat]
  simpa using hunpack

end Format

/-! ### A machine with an array -/

/-- Words for `double`, which they agree with on whole numbers. -/
def words : Host (BitVec 64) where
  ofInt := BitVec.ofInt 64
  add := (· + ·)
  sub := (· - ·)
  mul := (· * ·)
  div := BitVec.sdiv
  fmod := BitVec.srem
  pow a b := a ^ b.toNat
  neg := (- ·)
  trunc := id
  lt a b := a.slt b
  eq a b := decide (a = b)
  isfinite _ := true
  toInt32 d := BitVec.ofInt 32 d.toInt
  toInt64 := id
  strtod _ := 0
  formatSleepNumber d := ascii (toString d.toInt)
  formatOneDigit d := ascii (toString d.toInt ++ ".0")
  isBigEndian := false
  charSigned := true
  toUInt8 d := BitVec.ofInt 8 d.toInt
  toUInt16 d := BitVec.ofInt 16 d.toInt
  toFloatBits := BitVec.setWidth 32
  ofFloatBits := BitVec.setWidth 64
  toBits := id
  ofBits := id
  ofPayload := BitVec.ofInt 64

theorem faithful_words : Faithful words fun d n => d.toInt = n where
  ofInt n hlo hhi := BitVec.toInt_ofInt_eq_self (by decide) (by omega) (by omega)
  toUInt8 d n h _ _ := h ▸ rfl
  toUInt16 d n h _ _ := h ▸ rfl
  toInt32 d n h _ _ := h ▸ rfl
  toInt64 d n h _ _ := h ▸ BitVec.ofInt_toInt.symm
  ofFloatBits x := by
    have hback : (x.setWidth 64).setWidth 32 = x := by
      apply BitVec.eq_of_toNat_eq
      simp only [BitVec.toNat_setWidth]
      omega
    exact congrArg (BitVec.setWidth 64) hback
  ofBits d := rfl

/-- The array of the numbers 1 and 2. -/
def pairMachine : Machine (BitVec 64) :=
  ⟨{ objects := [⟨0, false, .array { elements := [.num 1, .num 2], count := 2 }⟩] }, []⟩

/-- The array is packed whole. -/
theorem packable_pair (fmt : Printf) :
    Packable fmt pairMachine.vm.objects (.other 0 : OperandValue (BitVec 64) Ref) := by
  have hobject : ∀ r, Stdlib.PartOf pairMachine.vm.objects (.obj 0) r →
      pairMachine.vm.objects.get? r = some (.array { elements := [.num 1, .num 2], count := 2 }) := by
    intro r hr
    have hzero : r = 0 := by
      refine hr.mem_of_closed (M := {r | r = 0}) ?_ ?_
      · rintro q hq
        exact (Value.obj.inj hq).symm
      · rintro a rfl b hb
        rw [show Stdlib.successors pairMachine.vm.objects 0 = [] by decide] at hb
        cases hb
    rw [hzero]
    rfl
  refine .object trivial (fun r hr => ⟨_, hobject r hr, Nat.le_refl 2⟩) fun r t hr ht => ?_
  rw [hobject r hr] at ht
  cases ht

/-- The plan of a format with an array. -/
def pairPlan : Plan (BitVec 64) :=
  [(⟨.B, 2, true⟩, [.num 1, .num 255]), (⟨.s, 1, false⟩, [.num (-3)]),
    (⟨.z, -1, true⟩, [.string (ascii "abc")]), (⟨.Z, 4, true⟩, [.string (ascii "de")]),
    (⟨.H, 2, true⟩, [.string (ascii "01ab")]), (⟨.x, 1, true⟩, []), (⟨.l, 1, true⟩, [.long 5]),
    (⟨.o, -1, true⟩, [.other 0, .null])]

theorem pairPlan_suits :
    pairPlan.Suits words Stdlib.plainFormat (fun d n => d.toInt = n) pairMachine.vm.objects := by
  refine ⟨by unfold Field.WellFormed; decide, by unfold Field.IsGreedy; decide, ?_⟩
  have hnum : ∀ d : BitVec 64,
      IsInteger (fun d n => d.toInt = n) (.num d : OperandValue (BitVec 64) Ref) d.toInt :=
    fun d => .num rfl
  simp only [pairPlan, List.forall_mem_cons]
  have hhex : ∀ c ∈ ascii "01ab", isLowerHex c = true :=
    List.all_eq_true.1 (show (ascii "01ab").all isLowerHex = true by decide)
  refine ⟨⟨.inr rfl, ?_⟩, ⟨.inr rfl, ?_⟩, ⟨_, rfl, by decide, rfl⟩, ⟨_, rfl, by decide, .inr (by decide)⟩,
    ⟨_, rfl, hhex, by decide, by decide, by decide⟩, rfl, ⟨.inr rfl, ?_⟩, ⟨.inl rfl, ?_⟩, by simp⟩
  · simp only [List.forall_mem_cons]
    exact ⟨⟨_, hnum 1, by decide, by decide⟩, ⟨_, hnum 255, by decide, by decide⟩, by simp⟩
  · simp only [List.forall_mem_cons]
    exact ⟨⟨_, hnum (-3), by decide, by decide⟩, by simp⟩
  · simp only [List.forall_mem_cons]
    exact ⟨⟨_, .long 5, by decide, by decide⟩, by simp⟩
  · simp only [List.forall_mem_cons]
    exact ⟨packable_pair _, .scalar (by simp) (by simp), by simp⟩

end Pack

end Slp
