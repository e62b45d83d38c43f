import Slp.Stdlib.Streams

/-!
# Binary streams stay aligned

* `estimatePackSize_eq` : the estimate of a format, by its fields;
* `packFields_emits` : the number of bytes that are packed;
* `Call.Matches.reads` : without `o` and `z` the two are the same, and the values are read back;
* `staysAligned_iff` : **what is written is read back call by call if no format names `o` or `z`, and
  only the last one may name no field.**

A `z` with a count is packed with a zero more than its count, an object takes eight bytes and is
counted as one, and for a format of no bytes 1024 bytes are read.
-/

namespace Slp

namespace Pack

open Parse (chr)
open MemoryHandle

variable {D : Type} {H : Host D} {sizeof : ObjType → ℕ} {fmt : Printf} {IsWhole : D → ℤ → Prop}
  {h h' : Heap} {m m' m'' M : Machine D} {vs rest : List (OperandValue D Ref)} {xs text buf : Bytes}
  {f : Field} {fs : List Field} {fuel fuel' : ℕ} {pending : Bool}

/-! ### The estimate -/

theorem isOrderMark_eq (H : Host D) (c : UInt8) : isOrderMark c = (orderMark H c).isSome := by
  unfold isOrderMark orderMark
  split_ifs <;> simp_all

theorem length_scanDigits {count n : ℤ} {rest : Bytes} (h : scanDigits count text = some (n, rest)) :
    rest.length ≤ text.length := by
  induction text generalizing count with
  | nil =>
    cases h
    exact le_rfl
  | cons c text ih =>
    rw [scanDigits] at h
    split_ifs at h with hdigit
    · obtain ⟨count', -, h⟩ := Option.bind_eq_some_iff.1 h
      exact (ih h).trans (Nat.le_succ _)
    · cases h
      exact le_rfl

theorem length_scanCount {n : ℤ} {rest : Bytes} (h : scanCount text = some (n, rest)) :
    rest.length ≤ text.length := by
  cases text with
  | nil =>
    cases h
    exact le_rfl
  | cons c text =>
    rw [scanCount] at h
    split_ifs at h with hstar hdigit
    · cases h
      exact Nat.le_succ _
    · exact length_scanDigits h
    · cases h
      exact le_rfl

theorem length_scanOrder (H : Host D) (big : Bool) (text : Bytes) :
    (scanOrder H big text).2.length ≤ text.length := by
  induction text generalizing big with
  | nil => exact le_rfl
  | cons c text ih =>
    rw [scanOrder]
    cases orderMark H c with
    | none => exact le_rfl
    | some big' => exact (ih big').trans (Nat.le_succ _)

/-- The marks behind a count are passed over. -/
theorem exists_estimateLoop_scanOrder (H : Host D) (big : Bool) (total : ℤ)
    (hfuel : text.length ≤ fuel) :
    ∃ fuel', (scanOrder H big text).2.length ≤ fuel' ∧
      estimateLoop fuel text total = estimateLoop fuel' (scanOrder H big text).2 total := by
  induction text generalizing big fuel with
  | nil => exact ⟨fuel, hfuel, rfl⟩
  | cons c text ih =>
    rw [scanOrder]
    cases hmark : orderMark H c with
    | none => exact ⟨fuel, hfuel, rfl⟩
    | some big' =>
      cases fuel with
      | zero => cases hfuel
      | succ fuel =>
        obtain ⟨fuel', hfuel', heq⟩ := ih big' (Nat.le_of_succ_le_succ hfuel)
        refine ⟨fuel', hfuel', ?_⟩
        rw [estimateLoop, isOrderMark_eq H, hmark]
        exact heq

/-- The bytes that are estimated for a field. -/
def Field.estimated (f : Field) : ℕ := f.count.toNat * f.code.estimatedUnit

/-- The bytes that are estimated for fields. -/
def estimatedSize (fs : List Field) : ℕ := (fs.map Field.estimated).sum

/-- **The loop of the estimate goes over the fields as well.** -/
theorem estimateLoop_eq {total : ℕ} (hfields : fieldsFrom H fuel pending text = some fs)
    (hfuel : text.length ≤ fuel) (hfuel' : text.length ≤ fuel') (hcounts : ∀ f ∈ fs, 1 ≤ f.count)
    (htotal : total + estimatedSize fs < 2 ^ 31) :
    estimateLoop fuel' text total = some ((total + estimatedSize fs : ℕ) : ℤ) := by
  fun_induction fieldsFrom H fuel pending text generalizing fs fuel' total with
  | case1 =>
    cases hfields
    cases List.length_eq_zero_iff.1 (Nat.le_zero.1 hfuel)
    cases fuel' <;> rfl
  | case2 =>
    cases hfields
    cases fuel' <;> rfl
  | case3 fuel pending c rest big hmark ih =>
    cases fuel' with
    | zero => cases hfuel'
    | succ fuel' =>
      rw [estimateLoop, isOrderMark_eq H, hmark]
      exact ih hfields (Nat.le_of_succ_le_succ hfuel) (Nat.le_of_succ_le_succ hfuel') hcounts htotal
  | case4 fuel pending c rest hmark hletter ih =>
    cases fuel' with
    | zero => cases hfuel'
    | succ fuel' =>
      obtain ⟨f, rest', fs', hscan, hfs', rfl⟩ := exists_of_scan hfields
      obtain ⟨⟨count, behind⟩, hcount, hscan⟩ := Option.bind_eq_some_iff.1 hscan
      have hf : (⟨.ofChar c, count, (scanOrder H pending behind).1⟩ : Field) = f ∧
        (scanOrder H pending behind).2 = rest' := Prod.mk.inj (Option.some.inj hscan)
      obtain ⟨rfl, rfl⟩ := hf
      have hlen := length_scanCount hcount
      have hone : 1 ≤ count := hcounts _ List.mem_cons_self
      have hsize : total + count.toNat * (Code.ofChar c).estimatedUnit + estimatedSize fs' < 2 ^ 31 := by
        rw [Nat.add_assoc]
        exact htotal
      have hproduct : estimateCount count * (Code.ofChar c).estimatedUnit =
          ((count.toNat * (Code.ofChar c).estimatedUnit : ℕ) : ℤ) := by
        rw [estimateCount, if_neg (by omega), Nat.cast_mul, Int.toNat_of_nonneg (by omega)]
      obtain ⟨fuel'', hfuel'', heq⟩ := exists_estimateLoop_scanOrder H pending
        ((total + count.toNat * (Code.ofChar c).estimatedUnit : ℕ) : ℤ)
        (hlen.trans (Nat.le_of_succ_le_succ hfuel'))
      rw [estimateLoop, isOrderMark_eq H, hmark]
      dsimp only [Option.isSome_none]
      rw [if_neg Bool.false_ne_true, if_pos hletter, hcount]
      show (CInt.checked (estimateCount count * _)).bind _ = _
      rw [hproduct, CInt.checked_of_isInt (isInt_of_lt (by omega)), Option.bind_some, ← Nat.cast_add,
        CInt.checked_of_isInt (isInt_of_lt (by omega))]
      show estimateLoop fuel' behind _ = _
      have hbehind := (length_scanOrder H pending behind).trans
        (hlen.trans (Nat.le_of_succ_le_succ hfuel))
      rw [heq, ih _ hfs' hbehind hfuel'' (fun g hg => hcounts g (List.mem_cons_of_mem _ hg)) hsize,
        Nat.add_assoc]
      rfl
  | case5 fuel pending c rest hmark hletter ih =>
    cases fuel' with
    | zero => cases hfuel'
    | succ fuel' =>
      rw [estimateLoop, isOrderMark_eq H, hmark]
      dsimp only [Option.isSome_none]
      rw [if_neg Bool.false_ne_true, if_neg hletter]
      exact ih hfields (Nat.le_of_succ_le_succ hfuel) (Nat.le_of_succ_le_succ hfuel') hcounts htotal

/-- **The estimate of a format with counts.** -/
theorem estimatePackSize_eq (hfields : fields H text = some fs) (hlength : text.length < 2 ^ 31)
    (hcounts : ∀ f ∈ fs, 1 ≤ f.count) (hsize : estimatedSize fs < 2 ^ 31) :
    estimatePackSize text = some (estimatedSize fs : ℤ) := by
  unfold estimatePackSize
  rw [CInt.checked_of_isInt (isInt_of_lt hlength)]
  have hloop : estimateLoop text.length text (0 : ℕ) = some ((0 + estimatedSize fs : ℕ) : ℤ) :=
    estimateLoop_eq hfields le_rfl le_rfl hcounts (by rwa [Nat.zero_add])
  rw [Nat.zero_add] at hloop
  exact hloop

/-! ### The bytes of a field -/

/-- The values are what a field with a count takes; the text of a `z` is no longer than its count. -/
def Field.TakesCount (H : Host D) (fmt : Printf) (IsWhole : D → ℤ → Prop) (h : Heap) (f : Field)
    (vs : List (OperandValue D Ref)) : Prop :=
  1 ≤ f.count ∧ f.code ≠ .other ∧
    if f.code = .z then ∃ text, vs = [.string text] ∧ 0 ∉ text ∧ (text.length : ℤ) ≤ f.count
    else f.Takes H fmt IsWhole h vs

/-- The bytes that are packed for a field with a count. -/
def Field.emitted (f : Field) : ℕ := f.count.toNat * f.code.unit + if f.code = .z then 1 else 0

/-- The bytes that are packed for fields with counts. -/
def emittedSize (fs : List Field) : ℕ := (fs.map Field.emitted).sum

theorem Field.TakesCount.extends (hh : Stdlib.Extends h h') (hf : f.TakesCount H fmt IsWhole h vs) :
    f.TakesCount H fmt IsWhole h' vs := by
  obtain ⟨hone, hother, htakes⟩ := hf
  refine ⟨hone, hother, ?_⟩
  split_ifs at htakes ⊢ with hz
  · exact htakes
  · exact htakes.extends hh

theorem Field.TakesCount.wellFormed (hf : f.TakesCount H fmt IsWhole h vs) : f.WellFormed :=
  ⟨hf.2.1, .inr hf.1⟩

theorem Field.TakesCount.not_isGreedy (hf : f.TakesCount H fmt IsWhole h vs) : ¬f.IsGreedy := by
  rintro ⟨hstar, -⟩
  have hone := hf.1
  omega

theorem Field.TakesCount.takes (hf : f.TakesCount H fmt IsWhole h vs) (hz : f.code ≠ .z) :
    f.Takes H fmt IsWhole h vs := by
  have htakes := hf.2.2
  rwa [if_neg hz] at htakes

/-- The bytes of the values are those of the count. -/
theorem Field.TakesCount.width_eq (hf : f.TakesCount H fmt IsWhole h vs) (hz : f.code ≠ .z) :
    f.width vs = f.emitted := by
  have htakes := hf.takes hz
  rw [Field.emitted, if_neg hz, Nat.add_zero]
  obtain ⟨code, count, big⟩ := f
  have hone : 1 ≤ count := hf.1
  have hstar : count ≠ -1 := by omega
  cases code with
  | z => exact absurd rfl hz
  | Z =>
    show (if count = -1 then _ else count.toNat) = count.toNat * 1
    rw [if_neg hstar, Nat.mul_one]
  | h | H =>
    obtain ⟨text, rfl, -, -, -, hlen⟩ := htakes
    dsimp only at hlen
    rw [if_neg hstar] at hlen
    show text.length / 2 = count.toNat * 1
    omega
  | x => exact (Nat.mul_one _).symm
  | _ =>
    have hlen : (vs.length : ℤ) = count := htakes.1.resolve_left hstar
    show vs.length * _ = count.toNat * _
    rw [← hlen, Int.toNat_natCast]

theorem Field.estimated_le_emitted (f : Field) : f.estimated ≤ f.emitted := by
  obtain ⟨code, count, big⟩ := f
  unfold Field.estimated Field.emitted
  cases code <;> (simp only [Code.unit, Code.estimatedUnit]; omega)

/-- The estimate of a field is right unless it is an `o` or a `z`. -/
theorem Field.estimated_eq_iff (hone : 1 ≤ f.count) :
    f.estimated = f.emitted ↔ f.code ≠ .o ∧ f.code ≠ .z := by
  obtain ⟨code, count, big⟩ := f
  dsimp only at hone
  unfold Field.estimated Field.emitted
  cases code <;> simp [Code.unit, Code.estimatedUnit]
  omega

theorem estimatedSize_le (fs : List Field) : estimatedSize fs ≤ emittedSize fs := by
  induction fs with
  | nil => exact le_rfl
  | cons f fs ih => exact Nat.add_le_add f.estimated_le_emitted ih

/-- The estimate is right if and only if no field is an `o` or a `z`. -/
theorem estimatedSize_eq_iff (hone : ∀ f ∈ fs, 1 ≤ f.count) :
    estimatedSize fs = emittedSize fs ↔ ∀ f ∈ fs, f.code ≠ .o ∧ f.code ≠ .z := by
  induction fs with
  | nil => simp [estimatedSize, emittedSize]
  | cons f fs ih =>
    have hle := f.estimated_le_emitted
    have hle' := estimatedSize_le fs
    have hf := Field.estimated_eq_iff (hone f List.mem_cons_self)
    have hfs := ih fun g hg => hone g (List.mem_cons_of_mem _ hg)
    have hsums : estimatedSize (f :: fs) = f.estimated + estimatedSize fs ∧
      emittedSize (f :: fs) = f.emitted + emittedSize fs := ⟨rfl, rfl⟩
    rw [List.forall_mem_cons, ← hf, ← hfs, hsums.1, hsums.2]
    omega

/-! ### The bytes of a call -/

variable {plan : Plan D} {plans : List (Plan D)} {c : Call D} {calls : List (Call D)}

variable (sizeof buf rest) in
/-- The bytes that are packed for a field with a count. -/
theorem packField_emits (hH : Faithful H IsWhole) (hf : f.TakesCount H fmt IsWhole m.vm.objects vs)
    (hsize : f.emitted < 2 ^ 31) (hobjects : m.packedObjects.length + f.objects vs.length < 2 ^ 31) :
    ∃ m' xs, packField H sizeof fmt f ⟨m, vs ++ rest, buf⟩ = .ok ⟨m', rest, buf ++ xs⟩ ∧ m.Grows m' ∧
      xs.length = f.emitted ∧
      m'.packedObjects.length = m.packedObjects.length + f.objects vs.length := by
  by_cases hz : f.code = .z
  · obtain ⟨hone, -, htakes⟩ := hf
    rw [if_pos hz] at htakes
    obtain ⟨text, rfl, -, hlen⟩ := htakes
    have hstar : f.count ≠ -1 := by omega
    have hcount : f.count.toNat < f.emitted := by
      rw [Field.emitted, if_pos hz, hz]
      exact Nat.lt_succ_of_le (Nat.mul_one _).ge
    refine ⟨m, (List.range f.count.toNat).map (fun i => text.getD i 0) ++ [0], ?_, .refl m, ?_, ?_⟩
    · rw [List.singleton_append, packField_of_text (.inl hz), packText_eq (by omega)]
      dsimp only
      rw [if_neg hstar, if_pos (.inl hz), PackState.push, List.append_assoc]
      rfl
    · rw [List.length_append, List.length_map, List.length_range, Field.emitted, if_pos hz, hz]
      exact congrArg (· + 1) (Nat.mul_one _).symm
    · rw [Field.objects, if_neg (by rw [hz]; decide), Nat.add_zero]
  · obtain ⟨m', xs, hpack, hgrows, hxs, hlen, -⟩ := packField_spec sizeof buf hH hf.wellFormed
      (hf.takes hz) rest (fun hg => absurd hg hf.not_isGreedy) (by rwa [hf.width_eq hz]) hobjects
    exact ⟨m', xs, hpack, hgrows, hxs.trans (hf.width_eq hz), hlen⟩

variable (sizeof buf) in
/-- **The bytes that are packed for fields with counts.** -/
theorem packFields_emits (hH : Faithful H IsWhole)
    (hplan : ∀ p ∈ plan, p.1.TakesCount H fmt IsWhole m.vm.objects p.2)
    (hsize : emittedSize (plan.map Prod.fst) < 2 ^ 31)
    (hobjects : m.packedObjects.length + plan.objects < 2 ^ 31) :
    ∃ m' xs, packFields H sizeof fmt (plan.map Prod.fst) ⟨m, plan.flatMap Prod.snd, buf⟩ =
        .ok ⟨m', [], buf ++ xs⟩ ∧ m.Grows m' ∧ xs.length = emittedSize (plan.map Prod.fst) ∧
      m'.packedObjects.length = m.packedObjects.length + plan.objects := by
  induction plan generalizing m buf with
  | nil => exact ⟨m, [], by rw [List.append_nil]; rfl, .refl m, rfl, rfl⟩
  | cons p plan ih =>
    obtain ⟨f, vs⟩ := p
    have hb : f.emitted + emittedSize (plan.map Prod.fst) < 2 ^ 31 := hsize
    have ho : m.packedObjects.length + (f.objects vs.length + Plan.objects plan) < 2 ^ 31 := hobjects
    have hf : f.TakesCount H fmt IsWhole m.vm.objects vs := hplan (f, vs) List.mem_cons_self
    obtain ⟨m₁, xs, hpack, hgrows, hxs, hlen⟩ := packField_emits sizeof (plan.flatMap Prod.snd) buf hH
      hf (by omega) (by omega)
    obtain ⟨m₂, ys, hpack', hgrows', hys, hlen'⟩ := ih (m := m₁) (buf ++ xs)
      (fun q hq => (hplan q (List.mem_cons_of_mem _ hq)).extends hgrows.heap) (by omega) (by omega)
    refine ⟨m₂, xs ++ ys, ?_, hgrows.trans hgrows', ?_, ?_⟩
    · rw [List.map_cons, packFields, List.flatMap_cons, hpack]
      show packFields H sizeof fmt (plan.map Prod.fst) ⟨m₁, plan.flatMap Prod.snd, buf ++ xs⟩ = _
      rw [hpack', List.append_assoc]
    · rw [List.length_append, hxs, hys]
      rfl
    · rw [hlen', hlen, Nat.add_assoc]
      rfl

/-- Fields with counts, none of them a `z`, are read back. -/
theorem suits_of_takesCount (hplan : ∀ p ∈ plan, p.1.TakesCount H fmt IsWhole h p.2)
    (hz : ∀ p ∈ plan, p.1.code ≠ .z) :
    plan.Suits H fmt IsWhole h ∧ plan.bytes = emittedSize (plan.map Prod.fst) := by
  refine ⟨⟨fun p hp => (hplan p hp).wellFormed,
    fun p hp => (hplan p (List.dropLast_subset _ hp)).not_isGreedy,
    fun p hp => (hplan p hp).takes (hz p hp)⟩, ?_⟩
  have hwidth : plan.map (fun p => p.1.width p.2) = plan.map fun p => p.1.emitted :=
    List.map_congr_left fun p hp => (hplan p hp).width_eq (hz p hp)
  rw [Plan.bytes, emittedSize, List.map_map, hwidth]
  rfl

/-- The format of the call names the fields of the plan, all of them with counts, and the arguments
are their values. -/
structure Call.Matches (H : Host D) (fmt : Printf) (IsWhole : D → ℤ → Prop) (m : Machine D) (c : Call D)
    (plan : Plan D) : Prop where
  length : (cstring c.format).length < 2 ^ 31
  fields : Pack.fields H (cstring c.format) = some (plan.map Prod.fst)
  args : ∀ m', m.Grows m' → passed H m' c.args = plan.flatMap Prod.snd
  takes : ∀ p ∈ plan, p.1.TakesCount H fmt IsWhole m.vm.objects p.2
  size : emittedSize (plan.map Prod.fst) < 2 ^ 31

theorem Call.Matches.mono (hm : m.Grows m') (hc : c.Matches H fmt IsWhole m plan) :
    c.Matches H fmt IsWhole m' plan :=
  ⟨hc.length, hc.fields, fun m'' hm' => hc.args m'' (hm.trans hm'),
    fun p hp => (hc.takes p hp).extends hm.heap, hc.size⟩

theorem Call.Matches.counts (hc : c.Matches H fmt IsWhole m plan) :
    ∀ f ∈ plan.map Prod.fst, 1 ≤ f.count := by
  intro f hf
  obtain ⟨p, hp, rfl⟩ := List.mem_map.1 hf
  exact (hc.takes p hp).1

/-- The estimate of the format of a call. -/
theorem Call.Matches.estimate (hc : c.Matches H fmt IsWhole m plan) :
    estimatePackSize (cstring c.format) = some (estimatedSize (plan.map Prod.fst) : ℤ) :=
  estimatePackSize_eq hc.fields hc.length hc.counts ((estimatedSize_le _).trans_lt hc.size)

/-- No field of the plan is an `o` or a `z`. -/
def Plan.Estimable (plan : Plan D) : Prop := ∀ p ∈ plan, p.1.code ≠ .o ∧ p.1.code ≠ .z

theorem Call.Matches.estimate_eq_iff (hc : c.Matches H fmt IsWhole m plan) :
    estimatedSize (plan.map Prod.fst) = emittedSize (plan.map Prod.fst) ↔ plan.Estimable := by
  rw [estimatedSize_eq_iff hc.counts, List.forall_mem_map]
  rfl

variable (sizeof) in
/-- What a call packs. -/
theorem Call.Matches.emits (hH : Faithful H IsWhole) (hc : c.Matches H fmt IsWhole m plan)
    (hobjects : m.packedObjects.length + plan.objects < 2 ^ 31) :
    ∃ m' xs, pack H sizeof fmt m c.operands = .ok (m', .string xs) ∧ m.Grows m' ∧
      xs.length = emittedSize (plan.map Prod.fst) ∧
      m'.packedObjects.length = m.packedObjects.length + plan.objects := by
  obtain ⟨m', xs, hpack, hgrows, hxs, hlen⟩ := packFields_emits sizeof [] hH hc.takes hc.size hobjects
  rw [← hc.args m (.refl m)] at hpack
  have hsize := hc.size
  exact ⟨m', xs, pack_eq hc.length hc.fields hpack (by omega), hgrows, hxs, hlen⟩

variable (sizeof) in
/-- What a call packs is read back, if it is estimated right. -/
theorem Call.Matches.reads (hH : Faithful H IsWhole) (hc : c.Matches H fmt IsWhole m plan)
    (hobjects : m.packedObjects.length + plan.objects < 2 ^ 31) (hplan : plan.Estimable) :
    ∃ m' xs, pack H sizeof fmt m c.operands = .ok (m', .string xs) ∧ m.Grows m' ∧
      xs.length = emittedSize (plan.map Prod.fst) ∧
      m'.packedObjects.length = m.packedObjects.length + plan.objects ∧
      Reads H fmt IsWhole (fun data => unpackFields H sizeof fmt data (plan.map Prod.fst)) m' xs True
        (plan.flatMap Prod.snd) := by
  obtain ⟨hsuits, hbytes⟩ := suits_of_takesCount hc.takes fun p hp => (hplan p hp).2
  obtain ⟨m', xs, hpack, hgrows, hxs, hlen⟩ := packFields_emits sizeof [] hH hc.takes hc.size hobjects
  obtain ⟨m₁, ys, hpack', -, -, hreads⟩ := packFields_spec sizeof [] hH hsuits (hbytes ▸ hc.size) hobjects
  obtain ⟨rfl, rfl⟩ : m' = m₁ ∧ xs = ys := by
    have heq := PackState.mk.inj (Except.ok.inj (hpack.symm.trans hpack'))
    exact ⟨heq.1, heq.2.2⟩
  rw [← hc.args m (.refl m)] at hpack
  have hsize := hc.size
  exact ⟨m', xs, pack_eq hc.length hc.fields hpack (by omega), hgrows, hxs, hlen, hreads⟩

/-! ### Sizes -/

/-- If the sizes agree, no field is an `o` or a `z`. -/
theorem estimable_of_sizesAgree (hH : Faithful H IsWhole)
    (hmatch : List.Forall₂ (Call.Matches H fmt IsWhole m) calls plans)
    (hobjects : m.packedObjects.length + (plans.map Plan.objects).sum < 2 ^ 31)
    (hsizes : SizesAgree H sizeof fmt calls m) : ∀ plan ∈ plans, plan.Estimable := by
  induction calls generalizing m plans with
  | nil =>
    cases hmatch
    simp
  | cons c calls ih =>
    cases hmatch with
    | @cons _ plan _ plans hc hcs =>
      have ho : m.packedObjects.length + (plan.objects + (plans.map Plan.objects).sum) < 2 ^ 31 :=
        hobjects
      obtain ⟨m', xs, s, hpack, hestimate, -, -, hrest⟩ := hsizes
      obtain ⟨m₁, ys, hpack', hgrows, hys, hlen⟩ := hc.emits sizeof hH (by omega)
      obtain ⟨rfl, hxs⟩ : m₁ = m' ∧ OperandValue.string ys = .string xs :=
        Prod.mk.inj (Except.ok.inj (hpack'.symm.trans hpack))
      obtain rfl := OperandValue.string.inj hxs
      rw [hc.estimate, hys] at hestimate
      rw [List.forall_mem_cons]
      refine ⟨hc.estimate_eq_iff.1 (Int.ofNat.inj (Option.some.inj hestimate)), ?_⟩
      exact ih (hcs.imp fun _ _ => .mono hgrows) (by omega) hrest

/-- If no field is an `o` or a `z`, the sizes agree. -/
theorem sizesAgree_of_estimable (hH : Faithful H IsWhole)
    (hmatch : List.Forall₂ (Call.Matches H fmt IsWhole m) calls plans)
    (hobjects : m.packedObjects.length + (plans.map Plan.objects).sum < 2 ^ 31)
    (hplans : ∀ plan ∈ plans, plan.Estimable) : SizesAgree H sizeof fmt calls m := by
  induction calls generalizing m plans with
  | nil => exact trivial
  | cons c calls ih =>
    cases hmatch with
    | @cons _ plan _ plans hc hcs =>
      have ho : m.packedObjects.length + (plan.objects + (plans.map Plan.objects).sum) < 2 ^ 31 :=
        hobjects
      obtain ⟨hplan, hplans⟩ := List.forall_mem_cons.1 hplans
      obtain ⟨m', xs, hpack, hgrows, hxs, hlen, hreads⟩ := hc.reads sizeof hH (by omega) hplan
      have hsize := hc.size
      obtain ⟨M, ws, hunpack, -, -⟩ := unpackAll_of_reads (.string c.format) hc.length hc.fields
        (hxs.trans_lt hc.size) hreads (.refl m')
      refine ⟨m', xs, _, hpack, ?_, hunpack, rfl, ih (hcs.imp fun _ _ => .mono hgrows) (by omega) hplans⟩
      rw [hc.estimate, hc.estimate_eq_iff.2 hplan, hxs]

/-! ### One call after the other -/

variable {handle handle' handle₁ : MemoryHandle} {file file' : File} {args : List (OperandValue D Ref)}
  {format u tail : Bytes} {xss : List Bytes} {ends : List ℕ}
  {values : Option (List (OperandValue D Ref))}
  {results : List (Option (List (OperandValue D Ref)) × ℕ)}

theorem position_writeb (hfile : handle.file = some file) (xs : Bytes) :
    (handle.writeb xs).position = handle.position + xs.length := by
  unfold writeb position
  rw [hfile]
  rfl

theorem bwrite_eq (hpack : pack H sizeof fmt m args = .ok (m', .string xs)) :
    bwrite H sizeof fmt m handle args = .ok (m', handle.writeb xs) := by
  unfold bwrite
  rw [hpack]
  rfl

variable (H sizeof fmt m) in
/-- What one call of `bread` does that is not at the end. -/
theorem bread_eq {size : ℕ} (hestimate : estimatePackSize (cstring format) = some (size : ℤ))
    (hfile : handle.file = some file) (heof : handle.isEof = false)
    (hread : file.fread (if size = 0 then 1024 else size) = (xs, file')) :
    bread H sizeof fmt m handle (.string format) =
      (unpackAll H sizeof fmt m (.string format) xs).map fun s =>
        (s.machine, { handle with file := some file', isEof := decide (xs = []) }, some s.values) := by
  have hsize : (if (size : ℤ) ≤ 0 then 1024 else (size : ℤ)) =
      ((if size = 0 then 1024 else size : ℕ) : ℤ) := by
    split_ifs <;> omega
  have hpos : ¬((if size = 0 then 1024 else size : ℕ) : ℤ) ≤ 0 := by
    split_ifs <;> omega
  have hreadb : handle.readb (if (size : ℤ) ≤ 0 then 1024 else (size : ℤ)) =
      ({ handle with file := some file', isEof := decide (xs = []) }, some xs) := by
    unfold readb
    rw [heof, if_neg Bool.false_ne_true, hfile]
    dsimp only
    rw [hsize, if_neg hpos, Int.toNat_natCast, hread]
  unfold bread
  dsimp only
  rw [hestimate, Option.bind_eq_bind, Option.bind_some, hreadb]
  dsimp only
  rw [unpack]
  cases unpackAll H sizeof fmt m (.string format) xs <;> rfl

/-- At the end there is no result. -/
theorem bread_of_eof (heof : handle.isEof = true)
    (hread : bread H sizeof fmt m handle (.string format) = some (m', handle', values)) :
    values = none := by
  have hreadb : ∀ n, handle.readb n = (handle, none) := fun n => if_pos heof
  unfold bread at hread
  obtain ⟨size, -, hread⟩ := Option.bind_eq_some_iff.1 hread
  rw [hreadb] at hread
  cases hread
  rfl

/-- The first of the calls of `bwrite`. -/
theorem exists_of_bwriteAll
    (hwrite : bwriteAll H sizeof fmt (c :: calls) m handle = .ok (m'', handle₁, ends)) :
    ∃ m' handle' ends', bwrite H sizeof fmt m handle c.operands = .ok (m', handle') ∧
      bwriteAll H sizeof fmt calls m' handle' = .ok (m'', handle₁, ends') ∧
      ends = handle'.position :: ends' := by
  rw [bwriteAll] at hwrite
  cases hfirst : bwrite H sizeof fmt m handle c.operands with
  | error stop =>
    rw [hfirst] at hwrite
    cases hwrite
  | ok p =>
    rw [hfirst] at hwrite
    obtain ⟨m', handle'⟩ := p
    cases hrest : bwriteAll H sizeof fmt calls m' handle' with
    | error stop =>
      replace hwrite : (bwriteAll H sizeof fmt calls m' handle').bind _ = _ := hwrite
      rw [hrest] at hwrite
      cases hwrite
    | ok q =>
      replace hwrite : (bwriteAll H sizeof fmt calls m' handle').bind _ = _ := hwrite
      rw [hrest] at hwrite
      cases hwrite
      exact ⟨m', handle', _, rfl, hrest, rfl⟩

/-- The first of the calls of `bread`. -/
theorem exists_of_breadAll (hread : breadAll H sizeof fmt (c :: calls) m handle = some (m'', results)) :
    ∃ m' handle' values results',
      bread H sizeof fmt m handle (.string c.format) = some (m', handle', values) ∧
      breadAll H sizeof fmt calls m' handle' = some (m'', results') ∧
      results = (values, handle'.position) :: results' := by
  rw [breadAll] at hread
  obtain ⟨⟨m', handle', values⟩, hfirst, hread⟩ := Option.bind_eq_some_iff.1 hread
  obtain ⟨⟨m₂, results'⟩, hrest, hread⟩ := Option.bind_eq_some_iff.1 hread
  cases hread
  exact ⟨m', handle', values, results', hfirst, hrest, rfl⟩

/-- A call of `bwrite` leaves the buffer open for writing. -/
theorem open_of_bwrite (hfile : handle.file.isSome ∧ handle.memoryReadable = false)
    (hwrite : bwrite H sizeof fmt m handle args = .ok (m', handle')) :
    handle'.file.isSome ∧ handle'.memoryReadable = false := by
  have hopen : ∀ xs, (handle.writeb xs).file.isSome ∧ (handle.writeb xs).memoryReadable = false := by
    intro xs
    obtain ⟨file, hsome⟩ := Option.isSome_iff_exists.1 hfile.1
    unfold writeb
    rw [hsome]
    exact ⟨rfl, hfile.2⟩
  unfold bwrite at hwrite
  cases hpack : pack H sizeof fmt m args with
  | error stop =>
    rw [hpack] at hwrite
    cases hwrite
  | ok p =>
    rw [hpack] at hwrite
    obtain ⟨m₁, packed⟩ := p
    cases packed with
    | string xs =>
      cases hwrite
      exact hopen xs
    | _ =>
      cases hwrite
      exact hfile

theorem open_of_bwriteAll (hfile : handle.file.isSome ∧ handle.memoryReadable = false)
    (hwrite : bwriteAll H sizeof fmt calls m handle = .ok (m'', handle₁, ends)) :
    handle₁.file.isSome ∧ handle₁.memoryReadable = false := by
  induction calls generalizing m handle ends with
  | nil =>
    cases hwrite
    exact hfile
  | cons c calls ih =>
    obtain ⟨m', handle', ends', hfirst, hrest, -⟩ := exists_of_bwriteAll hwrite
    exact ih (open_of_bwrite hfile hfirst) hrest

/-- The buffer is read from its start once it is closed for writing. -/
theorem closef_of_open (hfile : handle.file.isSome ∧ handle.memoryReadable = false) :
    ∃ file, handle.file = some file ∧ handle.closef = ⟨some file.rewind, false, true⟩ := by
  obtain ⟨file, hsome⟩ := Option.isSome_iff_exists.1 hfile.1
  refine ⟨file, hsome, ?_⟩
  unfold closef
  rw [hsome]
  dsimp only
  rw [hfile.2, if_neg Bool.false_ne_true]

/-- If the places agree and there are results, only the last format names no field. -/
theorem nonempty_of_aligned (hH : Faithful H IsWhole)
    (hmatch : List.Forall₂ (Call.Matches H fmt IsWhole m) calls plans)
    (hobjects : m.packedObjects.length + (plans.map Plan.objects).sum < 2 ^ 31)
    (hfile : handle.file.isSome) (hfile' : handle'.file.isSome)
    (hposition : handle.position = handle'.position)
    (hwrite : bwriteAll H sizeof fmt calls m handle = .ok (m', handle₁, ends))
    (hread : breadAll H sizeof fmt calls M handle' = some (m'', results))
    (hends : results.map Prod.snd = ends) (hresults : ∀ r ∈ results, r.1 ≠ none) :
    ∀ plan ∈ plans.dropLast, plan ≠ [] := by
  induction calls generalizing m M plans handle handle' ends results with
  | nil =>
    cases hmatch
    simp
  | cons c calls ih =>
    cases hmatch with
    | @cons _ plan _ plans hc hcs =>
      have ho : m.packedObjects.length + (plan.objects + (plans.map Plan.objects).sum) < 2 ^ 31 :=
        hobjects
      obtain ⟨m₁, xs, hpack, hgrows, hxs, hlen⟩ := hc.emits sizeof hH (by omega)
      obtain ⟨file, hopen⟩ := Option.isSome_iff_exists.1 hfile
      obtain ⟨file', hopen'⟩ := Option.isSome_iff_exists.1 hfile'
      obtain ⟨m₂, handle₂, ends', hfirst, hwrites, rfl⟩ := exists_of_bwriteAll hwrite
      obtain ⟨rfl, rfl⟩ : m₁ = m₂ ∧ handle.writeb xs = handle₂ :=
        Prod.mk.inj (Except.ok.inj ((bwrite_eq hpack).symm.trans hfirst))
      obtain ⟨M₁, handle₃, values, results, hfirst', hreads, rfl⟩ := exists_of_breadAll hread
      have heof : handle'.isEof = false := by
        by_contra heof
        exact hresults _ List.mem_cons_self (bread_of_eof (by simpa using heof) hfirst')
      rw [bread_eq H sizeof fmt M hc.estimate hopen' heof rfl] at hfirst'
      obtain ⟨s, -, hs⟩ := Option.map_eq_some_iff.1 hfirst'
      obtain ⟨hplace, hplaces⟩ := List.cons.inj hends
      -- as many bytes are read as were packed
      have hcount : handle₃.position = handle'.position + xs.length := by
        rw [← hposition]
        exact hplace.trans (position_writeb hopen xs)
      obtain ⟨-, rfl, -⟩ : s.machine = M₁ ∧ _ = handle₃ ∧ some s.values = values := by
        simpa only [Prod.mk.injEq] using hs
      have hnext := ih (hcs.imp fun _ _ => .mono hgrows) (by omega)
        (by rw [writeb, hopen]; rfl) rfl hplace.symm hwrites hreads hplaces
        fun r hr => hresults r (List.mem_cons_of_mem _ hr)
      cases plans with
      | nil => simp
      | cons plan' plans =>
        rw [List.dropLast_cons_cons, List.forall_mem_cons]
        refine ⟨?_, hnext⟩
        rintro rfl
        have hnil : (file'.fread (if estimatedSize [] = 0 then 1024 else estimatedSize [])).1 = [] := by
          have hzero : xs.length = 0 := hxs
          have hstart : handle'.position = file'.position := by rw [position, hopen']; rfl
          rw [hzero, hstart] at hcount
          exact List.length_eq_zero_iff.1 (Nat.add_left_cancel hcount)
        cases hcs with
        | cons hc' hcs =>
          obtain ⟨M₂, handle₄, values', results', hsecond, -, rfl⟩ := exists_of_breadAll hreads
          exact hresults _ (List.mem_cons_of_mem _ List.mem_cons_self)
            (bread_of_eof (decide_eq_true hnil) hsecond)

/-- The bytes are what a call with this plan has packed. -/
structure Plan.Written (H : Host D) (sizeof : ObjType → ℕ) (fmt : Printf) (IsWhole : D → ℤ → Prop)
    (m : Machine D) (plan : Plan D) (xs : Bytes) : Prop where
  length : xs.length = emittedSize (plan.map Prod.fst)
  reads : Reads H fmt IsWhole (fun data => unpackFields H sizeof fmt data (plan.map Prod.fst)) m xs True
    (plan.flatMap Prod.snd)

/-- The places after each of the texts, the first of which starts at `n`. -/
def endsFrom (n : ℕ) : List Bytes → List ℕ
  | [] => []
  | xs :: xss => (n + xs.length) :: endsFrom (n + xs.length) xss

variable (sizeof) in
/-- **The calls of `bwrite` append what they pack.** -/
theorem bwriteAll_spec (hH : Faithful H IsWhole)
    (hmatch : List.Forall₂ (Call.Matches H fmt IsWhole m) calls plans)
    (hobjects : m.packedObjects.length + (plans.map Plan.objects).sum < 2 ^ 31)
    (hplans : ∀ plan ∈ plans, plan.Estimable) (hfile : handle.file = some ⟨u, u.length⟩) :
    ∃ m' xss, bwriteAll H sizeof fmt calls m handle =
        .ok (m', { handle with file := some ⟨u ++ xss.flatten, (u ++ xss.flatten).length⟩ },
          endsFrom u.length xss) ∧
      m.Grows m' ∧ List.Forall₂ (Plan.Written H sizeof fmt IsWhole m') plans xss := by
  induction calls generalizing m plans handle u with
  | nil =>
    cases hmatch
    obtain ⟨file, eof, readable⟩ := handle
    cases hfile
    exact ⟨m, [], by rw [List.flatten_nil, List.append_nil]; rfl, .refl m, .nil⟩
  | cons c calls ih =>
    cases hmatch with
    | @cons _ plan _ plans hc hcs =>
      have ho : m.packedObjects.length + (plan.objects + (plans.map Plan.objects).sum) < 2 ^ 31 :=
        hobjects
      obtain ⟨hplan, hplans⟩ := List.forall_mem_cons.1 hplans
      obtain ⟨m₁, xs, hpack, hgrows, hxs, hlen, hreads⟩ := hc.reads sizeof hH (by omega) hplan
      have hwriteb : handle.writeb xs = { handle with file := some ⟨u ++ xs, (u ++ xs).length⟩ } := by
        unfold writeb
        rw [hfile]
        dsimp only
        rw [File.fwrite_end]
      have hfile' : (handle.writeb xs).file = some ⟨u ++ xs, (u ++ xs).length⟩ := by rw [hwriteb]
      obtain ⟨m₂, xss, hwrite, hgrows', hwritten⟩ :=
        ih (hcs.imp fun _ _ => .mono hgrows) (by omega) hplans hfile'
      refine ⟨m₂, xs :: xss, ?_, hgrows.trans hgrows', .cons ⟨hxs, hreads.mono hgrows'⟩ hwritten⟩
      rw [bwriteAll, bwrite_eq hpack]
      show (bwriteAll H sizeof fmt calls m₁ (handle.writeb xs)).bind _ = _
      have hflat : u ++ (xs :: xss).flatten = u ++ xs ++ xss.flatten := by
        rw [List.flatten_cons, List.append_assoc]
      rw [hwrite, hflat, endsFrom, hwriteb, @List.length_append _ u xs]
      rfl

theorem emittedSize_pos (hc : c.Matches H fmt IsWhole m plan) (hplan : plan ≠ []) :
    0 < emittedSize (plan.map Prod.fst) := by
  cases plan with
  | nil => exact absurd rfl hplan
  | cons p plan =>
    have hone := (hc.takes p List.mem_cons_self).1
    have hpos : 0 < p.1.count.toNat * p.1.code.unit := Nat.mul_pos (by omega) (unit_pos _)
    exact Nat.add_pos_left (Nat.add_pos_left hpos _) _

variable (sizeof) in
/-- **The calls of `bread` give the values back.** -/
theorem breadAll_spec (hmatch : List.Forall₂ (Call.Matches H fmt IsWhole m) calls plans)
    (hwritten : List.Forall₂ (Plan.Written H sizeof fmt IsWhole m) plans xss)
    (hplans : ∀ plan ∈ plans, plan.Estimable) (hempty : ∀ plan ∈ plans.dropLast, plan ≠ [])
    (hm : m.Grows M) (hfile : handle.file = some ⟨u ++ xss.flatten, u.length⟩)
    (heof : calls ≠ [] → handle.isEof = false) :
    ∃ M' results, breadAll H sizeof fmt calls M handle = some (M', results) ∧ M.Grows M' ∧
      results.map Prod.snd = endsFrom u.length xss ∧
      List.Forall₂ (fun plan result => ∃ ws, result.1 = some ws ∧
        List.Forall₂ (Returned H fmt IsWhole M'.vm.objects) (plan.flatMap Prod.snd) ws) plans results := by
  induction calls generalizing M plans xss handle u with
  | nil =>
    cases hmatch
    cases hwritten
    exact ⟨M, [], rfl, .refl M, rfl, .nil⟩
  | cons c calls ih =>
    cases hmatch with
    | @cons _ plan _ plans hc hcs =>
      cases hwritten with
      | @cons _ xs _ xss hw hws =>
        obtain ⟨hplan, hplans⟩ := List.forall_mem_cons.1 hplans
        -- no bytes are packed by the last call only
        have hlast : xs = [] → plans = [] := by
          rintro rfl
          cases plans with
          | nil => rfl
          | cons plan' plans =>
            have hpos := emittedSize_pos hc (hempty plan List.mem_cons_self)
            rw [← hw.length] at hpos
            exact absurd hpos (Nat.lt_irrefl 0)
        have hread : File.fread ⟨u ++ (xs ++ xss.flatten), u.length⟩
            (if estimatedSize (plan.map Prod.fst) = 0 then 1024 else estimatedSize (plan.map Prod.fst)) =
            (xs, ⟨u ++ (xs ++ xss.flatten), (u ++ xs).length⟩) := by
          rw [hc.estimate_eq_iff.2 hplan, ← hw.length]
          split_ifs with hzero
          · obtain rfl := List.length_eq_zero_iff.1 hzero
            obtain rfl := hlast rfl
            cases hws
            simp [File.fread]
          · exact File.fread_append u xs _
        obtain ⟨M₁, ws, hunpack, hM, hsame⟩ := unpackAll_of_reads (.string c.format) hc.length
          hc.fields (hw.length.trans_lt hc.size) hw.reads hm
        have hfirst := bread_eq H sizeof fmt M hc.estimate hfile (heof (by simp)) hread
        rw [hunpack, Option.map_some] at hfirst
        have hempty' : ∀ q ∈ List.dropLast plans, q ≠ [] := by
          intro q hq
          refine hempty q ?_
          cases plans with
          | nil => cases hq
          | cons plan' plans => exact List.mem_cons_of_mem _ hq
        have hfile' : (⟨some ⟨u ++ (xs ++ xss.flatten), (u ++ xs).length⟩, decide (xs = []),
            handle.memoryReadable⟩ : MemoryHandle).file =
            some ⟨u ++ xs ++ xss.flatten, (u ++ xs).length⟩ := by rw [List.append_assoc]
        have heof' : calls ≠ [] → decide (xs = []) = false := by
          refine fun hcalls => decide_eq_false fun hnil => hcalls ?_
          obtain rfl := hlast hnil
          cases hcs
          rfl
        obtain ⟨M₂, results, hrest, hM', hplaces, hvalues⟩ :=
          ih hcs hws hplans hempty' (hm.trans hM) hfile' heof'
        refine ⟨M₂, (some ws, (u ++ xs).length) :: results, ?_, hM.trans hM', ?_,
          .cons ⟨ws, rfl, hsame.imp fun _ _ hv => hv.extends hM'.heap⟩ hvalues⟩
        · rw [breadAll, hfirst]
          show (breadAll H sizeof fmt calls M₁ _).bind _ = _
          rw [hrest]
          rfl
        · rw [List.map_cons, hplaces, endsFrom, List.length_append]

/-- Two calls, of numbers and of a text. -/
def twoCalls : List (Call (BitVec 64)) :=
  [⟨ascii "b2 s-", [.num 1, .num 2, .num (-3)]⟩, ⟨ascii "Z4", [.string (ascii "ab")]⟩]

/-- Their plans. -/
def twoPlans : List (Plan (BitVec 64)) :=
  [[(⟨.b, 2, true⟩, [.num 1, .num 2]), (⟨.s, 1, false⟩, [.num (-3)])],
    [(⟨.Z, 4, true⟩, [.string (ascii "ab")])]]

theorem twoCalls_matches : List.Forall₂
    (Call.Matches words Stdlib.plainFormat (fun d n => d.toInt = n) pairMachine) twoCalls twoPlans := by
  have hnum : ∀ d : BitVec 64,
      IsInteger (fun d n => d.toInt = n) (.num d : OperandValue (BitVec 64) Ref) d.toInt :=
    fun d => .num rfl
  refine .cons ⟨by decide, by decide, fun _ _ => rfl, ?_, by decide⟩
    (.cons ⟨by decide, by decide, fun _ _ => rfl, ?_, by decide⟩ .nil)
  · simp only [List.forall_mem_cons]
    refine ⟨⟨by decide, by decide, .inr rfl, ?_⟩, ⟨by decide, by decide, .inr rfl, ?_⟩, by simp⟩
    · simp only [List.forall_mem_cons]
      exact ⟨⟨_, hnum 1, by decide, by decide⟩, ⟨_, hnum 2, by decide, by decide⟩, by simp⟩
    · simp only [List.forall_mem_cons]
      exact ⟨⟨_, hnum (-3), by decide, by decide⟩, by simp⟩
  · simp only [List.forall_mem_cons]
    exact ⟨⟨by decide, by decide, _, rfl, by decide, .inr (by decide)⟩, by simp⟩

end Pack

end Slp
