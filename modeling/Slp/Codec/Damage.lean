import Slp.Codec.RoundTrip

/-!
# Damaged bytecode

What the reader does with bytes that no writer made.  It stays within them, and up to the constants
it takes nothing that is not complete.  A constant that is cut off or has an unknown tag becomes
null, so that a function is returned all the same: an input is handled right exactly if its
constants are complete or something before them is not (`onlyComplete_iff`), and a cut image is
rejected exactly if the cut is before its constants (`cut_rejected_iff`).
-/

namespace Slp

namespace Codec

open Decoder

/-- The bytes of a constant with a known tag. -/
inductive ConstantImage : Bytes → Prop where
  | null : ConstantImage [0]
  | bool (b : UInt8) : ConstantImage [1, b]
  | num (bits : UInt64) : ConstantImage (2 :: writeU64 bits)
  | string (s : PoolString) (hbuf : Buffered s.chars) :
      ConstantImage (3 :: (writeU32 (UInt32.ofNat s.chars.length) ++ s.chars))
  | long (bits : UInt64) : ConstantImage (4 :: writeU64 bits)
  | double (bits : UInt64) : ConstantImage (5 :: writeU64 bits)

/-- The magic number, the version and a name with the bytes that its length announces. -/
inductive HeadingImage : Bytes → Prop where
  | mk (name : PoolString) (hbuf : Buffered name.chars) :
      HeadingImage (writeU32 magic ++ (writeU32 version ++
        (writeU32 (UInt32.ofNat name.chars.length) ++ name.chars)))

/-- The bytes between a name and the constants, with all the code that is announced, and the number
of constants. -/
inductive MiddleImage : Bytes → UInt32 → Prop where
  | mk (arity upvalueCount : UInt8) (codeCount : UInt32) (code : List UInt8)
      (hcode : code.length = codeCount.toNat) (constCount : UInt32) :
      MiddleImage ([arity] ++ ([upvalueCount] ++ (writeU32 codeCount ++
        (code ++ writeU32 constCount)))) constCount

/-- What stands before the constants. -/
def Preamble (bytes : Bytes) (constCount : UInt32) : Prop :=
  ∃ xs ys, HeadingImage xs ∧ MiddleImage ys constCount ∧ bytes = xs ++ ys

/-- `n` complete constants. -/
def ConstantImages (n : ℕ) (xs : Bytes) : Prop :=
  ∃ images : List Bytes, images.length = n ∧ (∀ x ∈ images, ConstantImage x) ∧ images.flatten = xs

/-- A function with all the bytes that it announces, and known tags. -/
def FunctionImage (bytes : Bytes) : Prop :=
  ∃ pre n xs, Preamble pre n ∧ ConstantImages n.toNat xs ∧ bytes = pre ++ xs

/-- A function is returned only if what was read for it is complete. -/
def OnlyComplete (data : Bytes) : Prop :=
  ∀ f c, deserializeFunction.run.run ⟨data, 0⟩ = (some f, c) → FunctionImage (data.take c.offset)

/-- The constants are complete, if what is before them is. -/
def ConstantsComplete (data : Bytes) : Prop :=
  ∀ pre n rest, Preamble pre n → data = pre ++ rest → ∃ xs, ConstantImages n.toNat xs ∧ xs <+: rest

/-! ### The parts before the constants -/

section Numbers

theorem writeU32_joinU32 {xs : Bytes} (hlen : xs.length = 4) : writeU32 (joinU32 xs) = xs := by
  obtain ⟨a, b, c, d, rfl⟩ : ∃ a b c d, xs = [a, b, c, d] := by
    match xs, hlen with
    | [a, b, c, d], _ => exact ⟨a, b, c, d, rfl⟩
  rw [writeU32_eq, joinU32_toNat]
  exact bigEndian_ofBigEndian [a, b, c, d]

theorem yields_readU8 : Yields readU8 fun xs b => xs = [b] := by
  refine ((yields_take 1).map fun xs => xs.headD 0).mono ?_
  rintro xs b ⟨_, ⟨hlen, rfl⟩, rfl⟩
  obtain ⟨b, rfl⟩ := List.length_eq_one_iff.1 hlen
  rfl

theorem yields_readU32 : Yields readU32 fun xs v => xs = writeU32 v := by
  refine ((yields_take 4).map joinU32).mono ?_
  rintro xs v ⟨_, ⟨hlen, rfl⟩, rfl⟩
  exact (writeU32_joinU32 hlen).symm

end Numbers

/-- A text that is read has the length that was announced, and its buffer has a size. -/
theorem yields_readText (len : UInt32) :
    Yields (readText len) fun xs ys => ys = xs ∧ xs.length = len.toNat ∧ Buffered xs := by
  intro before rest ys c hrun
  change ((if len.toNat > (before ++ rest).length - before.length then failure
    else if len + 1 = 0 then failure else take len.toNat :
      OptionT Decoder Bytes).run.run _) = _ at hrun
  split_ifs at hrun with hroom hsize
  · cases hrun
  · cases hrun
  · obtain ⟨xs, after, hrest, hc, hlen, rfl⟩ := yields_take len.toNat before rest ys c hrun
    refine ⟨ys, after, hrest, hc, rfl, hlen, ?_⟩
    -- the one length without a buffer
    intro hbuf
    refine hsize (UInt32.toNat_inj.1 ?_)
    rw [UInt32.toNat_add, ← hlen, hbuf]
    rfl

theorem yields_readName (nameLen : UInt32) :
    Yields (readName nameLen) fun xs name => nameChars name = xs ∧ xs.length = nameLen.toNat ∧
      Buffered xs := by
  refine Yields.ite (fun _ => ?_) fun hzero => ?_
  · refine ((yields_readText nameLen).map poolString).mono ?_
    rintro xs name ⟨_, ⟨rfl, hlen, hbuf⟩, rfl⟩
    refine ⟨?_, hlen, hbuf⟩
    have hlt := nameLen.toNat_lt
    rw [poolString, dif_pos (by omega)]
    rfl
  · refine (Yields.pure none).mono ?_
    rintro xs name ⟨rfl, rfl⟩
    have hnat : nameLen.toNat = 0 := by
      rw [gt_iff_lt, UInt32.lt_iff_toNat_lt] at hzero
      exact Nat.eq_zero_of_not_pos hzero
    exact ⟨rfl, hnat.symm, by simp [Buffered]⟩

theorem yields_readCode (count : ℕ) :
    Yields (readCode count) fun xs code => code = xs ∧ xs.length = count := by
  induction count with
  | zero =>
    refine (Yields.pure []).mono ?_
    rintro xs code ⟨rfl, rfl⟩
    exact ⟨rfl, rfl⟩
  | succ count ih =>
    refine (yields_readU8.bind fun b => ih.map (b :: ·)).mono ?_
    rintro zs code ⟨_, b, ys, rfl, rfl, _, ⟨rfl, hlen⟩, rfl⟩
    exact ⟨rfl, by rw [List.length_append, hlen, Nat.add_comm]; rfl⟩

/-- The reader up to the name. -/
def readHeading : OptionT Decoder (Option PoolString) := do
  if (← readU32) ≠ magic then failure
  else if (← readU32) ≠ version then failure
  else readName (← readU32)

/-- The reader between the name and the constants. -/
def readMiddle : OptionT Decoder (UInt8 × UInt8 × List UInt8 × UInt32) := do
  let arity ← readU8
  let upvalueCount ← readU8
  let code ← readCode (← readU32).toNat
  let constCount ← readU32
  return (arity, upvalueCount, code, constCount)

/-- The reader of the constants, and the function that is returned. -/
def readConstantsOf (name : Option PoolString) (p : UInt8 × UInt8 × List UInt8 × UInt32) :
    OptionT Decoder PoolFunction := do
  let constants ← readConstants p.2.2.2.toNat 0 []
  return ⟨name, p.1.toNat, p.2.1.toNat, ⟨p.2.2.1, constants⟩⟩

theorem deserializeFunction_eq :
    deserializeFunction = (do readConstantsOf (← readHeading) (← readMiddle)) := by
  unfold deserializeFunction readHeading readMiddle readConstantsOf deserializeChunk
  simp only [bind_assoc]
  congr 1
  funext m
  split_ifs
  · rfl
  · simp only [bind_assoc]
    congr 1
    funext v
    split_ifs
    · rfl
    · simp only [bind_assoc, pure_bind]

theorem yields_readHeading : Yields readHeading fun xs _ => HeadingImage xs := by
  have hname : Yields (do readName (← readU32)) fun xs _ =>
      ∃ name : PoolString, Buffered name.chars ∧
        xs = writeU32 (UInt32.ofNat name.chars.length) ++ name.chars := by
    refine (yields_readU32.bind yields_readName).mono ?_
    rintro _ _ ⟨_, nameLen, ys, rfl, rfl, -, hlen, hbuf⟩
    refine ⟨⟨ys, hlen ▸ nameLen.toNat_lt⟩, hbuf, ?_⟩
    show writeU32 nameLen ++ ys = writeU32 (UInt32.ofNat ys.length) ++ ys
    rw [hlen, UInt32.ofNat_toNat]
  have hversion : Yields (do if (← readU32) ≠ version then failure else readName (← readU32))
      fun xs _ => ∃ name : PoolString, Buffered name.chars ∧ xs = writeU32 version ++
        (writeU32 (UInt32.ofNat name.chars.length) ++ name.chars) := by
    refine (yields_readU32.bind (Q := fun v ys _ => v = version ∧ ∃ name : PoolString,
      Buffered name.chars ∧ ys = writeU32 (UInt32.ofNat name.chars.length) ++ name.chars)
      fun v => Yields.ite (fun _ => Yields.failure _) fun hv => hname.mono ?_).mono ?_
    · exact fun ys _ h => ⟨not_not.1 hv, h⟩
    · rintro _ _ ⟨_, _, _, rfl, rfl, rfl, name, hbuf, rfl⟩
      exact ⟨name, hbuf, rfl⟩
  refine (yields_readU32.bind (Q := fun m ys _ => m = magic ∧ ∃ name : PoolString,
    Buffered name.chars ∧ ys = writeU32 version ++
      (writeU32 (UInt32.ofNat name.chars.length) ++ name.chars))
    fun m => Yields.ite (fun _ => Yields.failure _) fun hm => hversion.mono ?_).mono ?_
  · exact fun ys _ h => ⟨not_not.1 hm, h⟩
  · rintro _ _ ⟨_, _, _, rfl, rfl, rfl, name, hbuf, rfl⟩
    exact .mk name hbuf

theorem yields_readMiddle : Yields readMiddle fun xs p => MiddleImage xs p.2.2.2 := by
  refine (yields_readU8.bind fun arity => yields_readU8.bind fun upvalueCount =>
    yields_readU32.bind fun codeCount => (yields_readCode codeCount.toNat).bind fun code =>
      yields_readU32.map fun constCount => (arity, upvalueCount, code, constCount)).mono ?_
  rintro _ _ ⟨_, arity, _, rfl, rfl, _, upvalueCount, _, rfl, rfl, _, codeCount, _, rfl, rfl,
    _, code, _, rfl, ⟨rfl, hlen⟩, constCount, rfl, rfl⟩
  exact .mk arity upvalueCount codeCount code hlen constCount

/-- A complete heading is read. -/
theorem HeadingImage.accepts {xs : Bytes} (hxs : HeadingImage xs) :
    ∃ name, Accepts readHeading xs name := by
  obtain ⟨name, hbuf⟩ := hxs
  refine ⟨readBack (some name), ?_⟩
  refine ((readU32_accepts magic).follows _).accepts ?_
  rw [if_neg (not_not.2 rfl)]
  refine ((readU32_accepts version).follows _).accepts ?_
  rw [if_neg (not_not.2 rfl)]
  exact ((readU32_accepts _).follows _).accepts (readName_accepts (some name) hbuf)

theorem MiddleImage.accepts {xs : Bytes} {n : UInt32} (hxs : MiddleImage xs n) :
    ∃ p, Accepts readMiddle xs p ∧ p.2.2.2 = n := by
  obtain ⟨arity, upvalueCount, codeCount, code, hcode⟩ := hxs
  refine ⟨(arity, upvalueCount, code, n), ?_, rfl⟩
  have hread := readCode_accepts code
  rw [hcode] at hread
  exact (readU8_accepts arity).bind ((readU8_accepts upvalueCount).bind
    ((readU32_accepts codeCount).bind (hread.bind ((readU32_accepts n).map fun constCount =>
      (arity, upvalueCount, code, constCount)))))

/-! ### The constants -/

/-- A complete constant is read. -/
theorem ConstantImage.reads {xs : Bytes} (hxs : ConstantImage xs) (address : Ref) :
    ∃ v, Reads (deserializeValue address) xs v := by
  cases hxs with
  | null => exact ⟨_, deserializeValue_reads (v := .null) rfl fun _ _ h => by cases h⟩
  | bool b =>
    have hread : Reads (readValue address).run ([1] ++ [b]) (some (.bool (b ≠ 0))) :=
      (readU8_accepts 1).bind ((readU8_accepts b).map fun x => PoolValue.bool (x ≠ 0))
    have hbind := Reads.bind (f := fun o => pure (o.getD .null)) hread (Reads.pure _)
    exact ⟨_, hbind⟩
  | num bits => exact ⟨_, deserializeValue_reads (v := .num bits) rfl fun _ _ h => by cases h⟩
  | string s hbuf =>
    refine ⟨_, deserializeValue_reads (v := .string address s) rfl fun r s' h => ?_⟩
    cases h
    exact hbuf
  | long bits =>
    have hlong : serializeValue (.long bits.toInt64) = some (4 :: writeU64 bits) := by
      rw [serializeValue, UInt64.toUInt64_toInt64]
    exact ⟨_, deserializeValue_reads hlong fun _ _ h => by cases h⟩
  | double bits =>
    exact ⟨_, deserializeValue_reads (v := .double bits) rfl fun _ _ h => by cases h⟩

theorem ConstantImages.reads {n : ℕ} {xs : Bytes} (hxs : ConstantImages n xs) (address : Ref)
    (constants : List PoolValue) : ∃ vs, Reads (readConstants n address constants) xs vs := by
  obtain ⟨images, rfl, hall, rfl⟩ := hxs
  induction images generalizing address constants with
  | nil => exact ⟨constants, Reads.pure constants⟩
  | cons x images ih =>
    obtain ⟨v, hv⟩ := (hall x List.mem_cons_self).reads address
    obtain ⟨vs, hvs⟩ := ih (address + 1) (chunkAddConstant constants v).2
      fun y hy => hall y (List.mem_cons_of_mem x hy)
    exact ⟨vs, hv.bind hvs⟩

/-! ### Staying within the bytes -/

theorem stays_readU8 : Stays readU8.run := (stays_take 1).bindT fun _ => Stays.pure _

theorem stays_readU32 : Stays readU32.run := (stays_take 4).bindT fun _ => Stays.pure _

theorem stays_readU64 : Stays readU64.run := (stays_take 8).bindT fun _ => Stays.pure _

theorem stays_readText (len : UInt32) : Stays (readText len).run := by
  intro c hc
  change ((if len.toNat > c.data.length - c.offset then failure
      else if len + 1 = 0 then failure else take len.toNat :
        OptionT Decoder Bytes).run.run c).2.data = _ ∧
    ((if len.toNat > c.data.length - c.offset then failure
      else if len + 1 = 0 then failure else take len.toNat :
        OptionT Decoder Bytes).run.run c).2.offset ≤ _
  split_ifs
  · exact ⟨rfl, hc⟩
  · exact ⟨rfl, hc⟩
  · exact stays_take len.toNat c hc

theorem stays_readName (nameLen : UInt32) : Stays (readName nameLen).run := by
  unfold readName
  split_ifs
  · exact (stays_readText nameLen).bindT fun _ => Stays.pure _
  · exact Stays.pure _

theorem stays_readCode (count : ℕ) : Stays (readCode count).run := by
  induction count with
  | zero => exact Stays.pure _
  | succ count ih => exact stays_readU8.bindT fun _ => ih.bindT fun _ => Stays.pure _

theorem stays_readTagged (address : Ref) (tag : UInt8) : Stays (readTagged address tag).run := by
  unfold readTagged
  split_ifs
  · exact stays_readU8.bindT fun _ => Stays.pure _
  · exact stays_readU64.bindT fun _ => Stays.pure _
  · refine stays_readU32.bindT fun len => (stays_readText len).bindT fun chars => ?_
    cases poolString chars with
    | none => exact Stays.failure
    | some s => exact Stays.pure _
  · exact stays_readU64.bindT fun _ => Stays.pure _
  · exact stays_readU64.bindT fun _ => Stays.pure _
  · exact Stays.pure _

theorem stays_readConstants (count : ℕ) (address : Ref) (constants : List PoolValue) :
    Stays (readConstants count address constants) := by
  induction count generalizing address constants with
  | zero => exact Stays.pure _
  | succ count ih =>
    have hvalue : Stays (deserializeValue address) :=
      (stays_readU8.bindT fun tag => stays_readTagged address tag).bind fun _ => Stays.pure _
    exact hvalue.bind fun v => ih (address + 1) (chunkAddConstant constants v).2

theorem stays_deserializeFunction : Stays deserializeFunction.run := by
  rw [deserializeFunction_eq]
  refine Stays.bindT ?_ fun name => Stays.bindT ?_ fun p => Stays.bindT ?_ fun _ => Stays.pure _
  · refine stays_readU32.bindT fun m => ?_
    split_ifs
    · exact Stays.failure
    · refine stays_readU32.bindT fun v => ?_
      split_ifs
      · exact Stays.failure
      · exact stays_readU32.bindT stays_readName
  · exact stays_readU8.bindT fun _ => stays_readU8.bindT fun _ => stays_readU32.bindT fun n =>
      (stays_readCode n.toNat).bindT fun _ => stays_readU32.bindT fun _ => Stays.pure _
  · exact (stays_readConstants _ 0 []).bind fun _ => Stays.pure _

/-! ### Damaged input -/

section Damage

variable {data pre pre' rest rest' : Bytes} {n n' : UInt32}

/-- A complete preamble is read, and then as many constants as it announces. -/
theorem Preamble.run (hpre : Preamble pre n) (rest : Bytes) : ∃ p : Option PoolString × UInt8 ×
    UInt8 × List UInt8 × UInt32, p.2.2.2.2 = n ∧
      deserializeFunction.run.run ⟨pre ++ rest, 0⟩ =
        ((readConstants n.toNat 0 []).run ⟨pre ++ rest, pre.length⟩).map
          (fun constants => some ⟨p.1, p.2.1.toNat, p.2.2.1.toNat, ⟨p.2.2.2.1, constants⟩⟩) id := by
  obtain ⟨xs, ys, hxs, hys, rfl⟩ := hpre
  obtain ⟨name, hname⟩ := hxs.accepts
  obtain ⟨p, hp, rfl⟩ := hys.accepts
  refine ⟨(name, p), rfl, ?_⟩
  have hfollows : Follows deserializeFunction (xs ++ ys) (readConstantsOf name p) := by
    rw [deserializeFunction_eq]
    exact (hname.follows _).trans (hp.follows _)
  have hrun := hfollows [] rest
  simp only [List.nil_append, List.length_nil] at hrun
  exact hrun

theorem Preamble.returns (hpre : Preamble pre n) (rest : Bytes) :
    ∃ f c, deserializeFunction.run.run ⟨pre ++ rest, 0⟩ = (some f, c) := by
  obtain ⟨p, -, hrun⟩ := hpre.run rest
  exact ⟨_, _, hrun⟩

/-- A preamble has one end. -/
theorem Preamble.unique (hpre : Preamble pre n) (hpre' : Preamble pre' n')
    (hdata : pre ++ rest = pre' ++ rest') : pre = pre' ∧ n = n' := by
  obtain ⟨xs, ys, hxs, hys, rfl⟩ := hpre
  obtain ⟨xs', ys', hxs', hys', rfl⟩ := hpre'
  obtain ⟨name, hname⟩ := hxs.accepts
  obtain ⟨p, hp, rfl⟩ := hys.accepts
  obtain ⟨name', hname'⟩ := hxs'.accepts
  obtain ⟨p', hp', rfl⟩ := hys'.accepts
  have hrun := hname.bind (f := fun name => (do return (name, ← readMiddle))) (hp.map (name, ·))
    [] rest
  have hrun' := hname'.bind (f := fun name => (do return (name, ← readMiddle)))
    (hp'.map (name', ·)) [] rest'
  rw [List.nil_append] at hrun hrun'
  rw [hdata, hrun'] at hrun
  obtain ⟨hresult, hcursor⟩ := Prod.mk.inj hrun
  have hlen : (xs' ++ ys').length = (xs ++ ys).length := by simpa using hcursor
  refine ⟨(List.append_inj hdata hlen.symm).1, ?_⟩
  rw [(Prod.mk.inj (Option.some.inj hresult)).2]

/-- A function that is returned has a complete preamble. -/
theorem exists_preamble {f : PoolFunction} {c : Cursor}
    (hrun : deserializeFunction.run.run ⟨data, 0⟩ = (some f, c)) :
    ∃ pre n rest, Preamble pre n ∧ data = pre ++ rest := by
  rw [deserializeFunction_eq] at hrun
  obtain ⟨name, c₁, hheading, hrun⟩ := exists_of_run_bind hrun
  obtain ⟨p, c₂, hmiddle, -⟩ := exists_of_run_bind hrun
  obtain ⟨xs, after, rfl, rfl, hxs⟩ := yields_readHeading [] data name c₁ hheading
  rw [List.nil_append] at hmiddle
  obtain ⟨ys, rest, rfl, -, hys⟩ := yields_readMiddle xs after p c₂ hmiddle
  exact ⟨xs ++ ys, p.2.2.2, rest, ⟨xs, ys, hxs, hys, rfl⟩, by rw [List.append_assoc]⟩

/-- Where a function is returned, its constants were read. -/
theorem onlyComplete_iff (data : Bytes) : OnlyComplete data ↔ ConstantsComplete data := by
  constructor
  · intro honly pre n rest hpre hdata
    obtain ⟨f, c, hrun⟩ := hpre.returns rest
    rw [← hdata] at hrun
    obtain ⟨pre', n', xs, hpre', hxs, htake⟩ := honly f c hrun
    -- the preamble of what was taken is the one that was given
    have hsplit : pre ++ rest = pre' ++ (xs ++ data.drop c.offset) := by
      rw [← hdata, ← List.append_assoc, ← htake, List.take_append_drop]
    obtain ⟨rfl, rfl⟩ := hpre.unique hpre' hsplit
    exact ⟨xs, hxs, _, (List.append_cancel_left hsplit).symm⟩
  · intro hcomplete f c hrun
    obtain ⟨pre, n, rest, hpre, rfl⟩ := exists_preamble hrun
    obtain ⟨xs, hxs, after, rfl⟩ := hcomplete pre n rest hpre rfl
    obtain ⟨p, -, hrun'⟩ := hpre.run (xs ++ after)
    obtain ⟨vs, hvs⟩ := hxs.reads 0 []
    have hread := hvs pre after
    rw [List.append_assoc] at hread
    rw [hread, hrun] at hrun'
    obtain rfl : c = ⟨pre ++ (xs ++ after), pre.length + xs.length⟩ := (Prod.mk.inj hrun').2
    refine ⟨pre, n, xs, hpre, hxs, ?_⟩
    rw [← List.append_assoc, ← List.length_append, List.take_left]

end Damage

section Cuts

variable {f : PoolFunction} {bytes : Bytes}

theorem preamble_of_serialize (hcode : f.chunk.code.length < 2 ^ 31)
    (hbuf : Buffered (nameChars f.name)) :
    Preamble (heading f ++ middle f) (UInt32.ofNat f.chunk.constants.length) :=
  ⟨heading f, middle f, .mk ⟨nameChars f.name, length_nameChars_lt f.name⟩ hbuf,
    .mk _ _ _ f.chunk.code (ofNat_toNat hcode).symm _, rfl⟩

/-- A cut image is rejected exactly if the cut is before the constants, or the image is not read at
all. -/
theorem cut_rejected_iff (hcode : f.chunk.code.length < 2 ^ 31)
    (hbytes : serializeFunction f = some bytes) (n : ℕ) :
    (deserializeFunction.run.run ⟨bytes.take n, 0⟩).1 = none ↔
      n < (heading f ++ middle f).length ∨ ¬Buffered (nameChars f.name) := by
  obtain ⟨xs, -, rfl⟩ := serializeFunction_eq hbytes
  rw [← List.append_assoc]
  constructor
  · intro hnone
    by_contra! hcut
    obtain ⟨hlen, hbuf⟩ := hcut
    obtain ⟨g, c, hrun⟩ := (preamble_of_serialize hcode hbuf).returns
      (xs.take (n - (heading f ++ middle f).length))
    rw [List.take_append, List.take_of_length_le hlen, hrun] at hnone
    cases hnone
  · intro hcut
    by_contra hsome
    obtain ⟨g, hg⟩ := Option.ne_none_iff_exists'.1 hsome
    have hrun : deserializeFunction.run.run ⟨(heading f ++ middle f ++ xs).take n, 0⟩ =
        (some g, (deserializeFunction.run.run ⟨(heading f ++ middle f ++ xs).take n, 0⟩).2) :=
      Prod.ext hg rfl
    obtain ⟨pre, k, rest, hpre, hdata⟩ := exists_preamble hrun
    have hwhole : pre ++ (rest ++ (heading f ++ middle f ++ xs).drop n) =
        heading f ++ middle f ++ xs := by
      rw [← List.append_assoc, ← hdata, List.take_append_drop]
    have hbuf : Buffered (nameChars f.name) := by
      by_contra hbuf
      obtain ⟨h, c, hrun⟩ := hpre.returns (rest ++ (heading f ++ middle f ++ xs).drop n)
      have hnone := deserializeFunction_unnamed hbuf [] (middle f ++ xs)
      rw [List.nil_append, ← List.append_assoc, List.length_nil, ← hwhole, hrun] at hnone
      cases hnone
    obtain ⟨rfl, -⟩ := hpre.unique (preamble_of_serialize hcode hbuf) hwhole
    have hle := congrArg List.length hdata
    have hlt := hcut.resolve_right (not_not.2 hbuf)
    simp only [List.length_take, List.length_append] at hle hlt
    omega

end Cuts

end Codec

end Slp
