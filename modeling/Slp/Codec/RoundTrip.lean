import Slp.Codec.Bytecode

/-!
# The bytecode round trip

What is read back of a function that was written.  The constants come back at the indices they had,
although the reader looks for equal ones: no two constants of the writer's table are equal, and the
strings the reader makes are all different objects.  The text of a string constant or of the name
comes back unless it has `2 ^ 32 - 1` bytes (`roundTrips_iff`).
-/

namespace Slp

/-- The constant as the reader makes it again: a string is a new object. -/
def PoolValue.relocate (address : Ref) : PoolValue → PoolValue
  | .string _ s => .string address s
  | v => v

namespace Codec

open Decoder

/-- What the reader makes of the written bytes, whatever follows them: a function with the same
name, counts and code, and with equal constants at all indices; no other bytes are taken. -/
def RoundTrips (f : PoolFunction) (bytes : Bytes) : Prop :=
  ∀ suffix : Bytes, ∃ g : PoolFunction,
    deserializeFunction.run.run ⟨bytes ++ suffix, 0⟩ =
        (some g, ⟨bytes ++ suffix, bytes.length⟩) ∧
      nameChars g.name = nameChars f.name ∧ g.arity = f.arity ∧
      g.upvalueCount = f.upvalueCount ∧ g.chunk.code = f.chunk.code ∧
      g.chunk.constants.length = f.chunk.constants.length ∧
      ∀ (i : ℕ) (v : PoolValue), f.chunk.constants[i]? = some v →
        ∃ address, g.chunk.constants[i]? = some (v.relocate address)

/-- The buffer of the text has a size that is not zero. -/
def Buffered (chars : Bytes) : Prop := chars.length ≠ 2 ^ 32 - 1

/-- The texts of the function can be read. -/
structure Readable (f : PoolFunction) : Prop where
  name : Buffered (nameChars f.name)
  constants : ∀ address s, .string address s ∈ f.chunk.constants → Buffered s.chars

section Numbers

theorem readU8_accepts (b : UInt8) : Accepts readU8 [b] b :=
  (accepts_take [b]).map fun xs => xs.headD 0

theorem writeU32_eq (v : UInt32) : writeU32 v = bigEndian 4 v.toNat := by
  have hbyte : ∀ k : UInt32, (v >>> k).toUInt8 = UInt8.ofNat (v.toNat / 2 ^ (k.toNat % 32)) := by
    intro k
    rw [← UInt8.toNat_inj, UInt32.toNat_toUInt8, UInt32.toNat_shiftRight,
      Nat.shiftRight_eq_div_pow]
    exact UInt8.toNat_ofNat'.symm
  have hlast : v.toUInt8 = UInt8.ofNat v.toNat := by
    rw [← UInt8.toNat_inj, UInt32.toNat_toUInt8]
    exact UInt8.toNat_ofNat'.symm
  rw [writeU32, hbyte, hbyte, hbyte, hlast]
  simp only [bigEndian, List.nil_append, List.cons_append, Nat.div_div_eq_div_mul]
  rfl

theorem joinU32_toNat (a b c d : UInt8) :
    (joinU32 [a, b, c, d]).toNat = ofBigEndian [a, b, c, d] := by
  have hshift : ∀ (x : UInt8) (k : UInt32), k.toNat ≤ 24 →
      (x.toUInt32 <<< k).toNat = x.toNat <<< k.toNat := by
    intro x k hk
    have hx := x.toNat_lt
    have hmod : k.toNat % 32 = k.toNat := Nat.mod_eq_of_lt (by omega)
    rw [UInt32.toNat_shiftLeft, UInt8.toNat_toUInt32, hmod, Nat.shiftLeft_eq]
    refine Nat.mod_eq_of_lt ?_
    calc x.toNat * 2 ^ k.toNat < 2 ^ 8 * 2 ^ k.toNat :=
          Nat.mul_lt_mul_of_pos_right hx (Nat.two_pow_pos _)
      _ ≤ 2 ^ 8 * 2 ^ 24 := Nat.mul_le_mul_left _ (Nat.pow_le_pow_right (by decide) hk)
      _ = 2 ^ 32 := by decide
  have hjoin : a.toNat <<< 24 ||| b.toNat <<< 16 ||| c.toNat <<< 8 ||| d.toNat =
      ((a.toNat <<< 8 ||| b.toNat) <<< 8 ||| c.toNat) <<< 8 ||| d.toNat := by
    simp only [Nat.shiftLeft_or_distrib, ← Nat.shiftLeft_add]
  show (a.toUInt32 <<< 24 ||| b.toUInt32 <<< 16 ||| c.toUInt32 <<< 8 ||| d.toUInt32).toNat = _
  rw [UInt32.toNat_or, UInt32.toNat_or, UInt32.toNat_or, hshift a 24 (by decide),
    hshift b 16 (by decide), hshift c 8 (by decide), UInt8.toNat_toUInt32]
  refine hjoin.trans ?_
  rw [shiftLeft_or _ _ d.toNat_lt, shiftLeft_or _ _ c.toNat_lt, shiftLeft_or _ _ b.toNat_lt]
  show _ = (((0 * 256 + a.toNat) * 256 + b.toNat) * 256 + c.toNat) * 256 + d.toNat
  rw [Nat.zero_mul, Nat.zero_add]

theorem readU32_accepts (v : UInt32) : Accepts readU32 (writeU32 v) v := by
  have hread := (accepts_take (writeU32 v)).map joinU32
  have hjoin : joinU32 (writeU32 v) = v := by
    rw [← UInt32.toNat_inj, writeU32, joinU32_toNat]
    show ofBigEndian (writeU32 v) = v.toNat
    rw [writeU32_eq, ofBigEndian_bigEndian]
    exact Nat.mod_eq_of_lt v.toNat_lt
  rwa [hjoin] at hread

theorem joinU64_toNat (xs : Bytes) (hlen : xs.length ≤ 8) :
    (joinU64 xs).toNat = ofBigEndian xs := by
  induction xs using List.reverseRec with
  | nil => rfl
  | append_singleton xs b ih =>
    rw [List.length_append, List.length_singleton] at hlen
    have hxs := ih (by omega)
    have hlt : ofBigEndian xs < 256 ^ 7 :=
      Nat.lt_of_lt_of_le (ofBigEndian_lt xs) (Nat.pow_le_pow_right (by decide) (by omega))
    have hstep : joinU64 (xs ++ [b]) = (joinU64 xs <<< 8) ||| b.toUInt64 := by
      rw [joinU64, List.foldl_append]
      rfl
    have hsmall : (joinU64 xs <<< 8).toNat = ofBigEndian xs <<< 8 := by
      rw [UInt64.toNat_shiftLeft, hxs]
      refine Nat.mod_eq_of_lt ?_
      show ofBigEndian xs <<< 8 < 2 ^ 64
      rw [Nat.shiftLeft_eq]
      omega
    rw [hstep, UInt64.toNat_or, hsmall, UInt8.toNat_toUInt64, shiftLeft_or _ _ b.toNat_lt,
      ofBigEndian_append]

theorem writeU64_eq (v : UInt64) : writeU64 v = bigEndian 8 v.toNat := by
  have hbyte : ∀ k : UInt64, (v >>> k).toUInt8 = UInt8.ofNat (v.toNat / 2 ^ (k.toNat % 64)) := by
    intro k
    rw [← UInt8.toNat_inj, UInt64.toNat_toUInt8, UInt64.toNat_shiftRight,
      Nat.shiftRight_eq_div_pow]
    exact UInt8.toNat_ofNat'.symm
  show [(v >>> 56).toUInt8, (v >>> 48).toUInt8, (v >>> 40).toUInt8, (v >>> 32).toUInt8,
    (v >>> 24).toUInt8, (v >>> 16).toUInt8, (v >>> 8).toUInt8, (v >>> 0).toUInt8] = _
  simp only [hbyte, bigEndian, List.nil_append, List.cons_append, Nat.div_div_eq_div_mul]
  have hzero : v.toNat / 2 ^ ((0 : UInt64).toNat % 64) = v.toNat := Nat.div_one _
  rw [hzero]
  rfl

theorem readU64_accepts (v : UInt64) : Accepts readU64 (writeU64 v) v := by
  have hlen : (writeU64 v).length = 8 := rfl
  have hread := (accepts_take (writeU64 v)).map joinU64
  have hjoin : joinU64 (writeU64 v) = v := by
    rw [← UInt64.toNat_inj, joinU64_toNat _ hlen.le, writeU64_eq, ofBigEndian_bigEndian]
    exact Nat.mod_eq_of_lt v.toNat_lt
  rwa [hjoin] at hread

end Numbers

section Constants

variable {v : PoolValue} {xs : Bytes} {address : Ref}

/-- The text of a string is read if its buffer has a size. -/
theorem readText_accepts (hlen : xs.length < 2 ^ 32) (hbuf : Buffered xs) :
    Accepts (readText (UInt32.ofNat xs.length)) xs xs := by
  have hnat : (UInt32.ofNat xs.length).toNat = xs.length := UInt32.toNat_ofNat_of_lt' hlen
  have hsize : UInt32.ofNat xs.length + 1 ≠ 0 := by
    intro hzero
    have htoNat := congrArg UInt32.toNat hzero
    rw [UInt32.toNat_add, hnat] at htoNat
    change (xs.length + 1) % 2 ^ 32 = 0 at htoNat
    unfold Buffered at hbuf
    omega
  intro before after
  have hroom : ¬xs.length > (before ++ xs ++ after).length - before.length := by
    simp only [List.length_append]
    omega
  have hrun : (readText (UInt32.ofNat xs.length)).run.run
      ⟨before ++ xs ++ after, before.length⟩ =
      (take xs.length).run.run ⟨before ++ xs ++ after, before.length⟩ := by
    show ((if (UInt32.ofNat xs.length).toNat > (before ++ xs ++ after).length - before.length then
      failure else if UInt32.ofNat xs.length + 1 = 0 then failure
      else take (UInt32.ofNat xs.length).toNat : OptionT Decoder Bytes).run.run _) = _
    rw [hnat, if_neg hroom, if_neg hsize]
  rw [hrun]
  exact accepts_take xs before after

/-- A text of `2 ^ 32 - 1` bytes is not read: its buffer has no size. -/
theorem readText_rejects (hlen : ¬Buffered xs) :
    Rejects (readText (UInt32.ofNat xs.length)) xs := by
  rw [Buffered, not_not] at hlen
  have hsize : UInt32.ofNat xs.length + 1 = 0 := by
    rw [hlen]
    rfl
  intro before after
  show ((if (UInt32.ofNat xs.length).toNat > (before ++ xs ++ after).length - before.length then
    failure else if UInt32.ofNat xs.length + 1 = 0 then failure
    else take (UInt32.ofNat xs.length).toNat : OptionT Decoder Bytes).run.run _).1 = _
  rw [if_pos hsize, ite_self]
  rfl

theorem poolString_chars (s : PoolString) : poolString s.chars = some s := by
  rw [poolString, dif_pos s.length_lt]

/-- A constant that was written is read, as a new object if it is a string. -/
theorem deserializeValue_reads (hxs : serializeValue v = some xs)
    (hbuf : ∀ r s, v = .string r s → Buffered s.chars) :
    Reads (deserializeValue address) xs (v.relocate address) := by
  have htagged : ∀ tag ys, Accepts (readTagged address tag) ys (v.relocate address) →
      Reads (deserializeValue address) (tag :: ys) (v.relocate address) := by
    intro tag ys htag
    have hread : Reads (readValue address).run ([tag] ++ ys) (some (v.relocate address)) :=
      (readU8_accepts tag).bind htag
    have hbind := Reads.bind (f := fun o => pure (o.getD .null)) hread (Reads.pure _)
    rwa [List.append_nil] at hbind
  cases v with
  | null =>
    cases hxs
    exact htagged 0 [] (Accepts.pure _)
  | bool b =>
    cases hxs
    refine htagged 1 [_] ?_
    have hread := (readU8_accepts (if b then 1 else 0)).map fun x => PoolValue.bool (x ≠ 0)
    cases b
    · exact hread
    · exact hread
  | num bits =>
    cases hxs
    exact htagged 2 _ ((readU64_accepts bits).map PoolValue.num)
  | string r s =>
    cases hxs
    refine htagged 3 _ ?_
    have htext := readText_accepts s.length_lt (hbuf r s rfl)
    refine (readU32_accepts _).bind (htext.bind_nil ?_)
    rw [poolString_chars]
    exact Accepts.pure _
  | long n =>
    cases hxs
    have hread := (readU64_accepts n.toUInt64).map fun x => PoolValue.long x.toInt64
    rw [Int64.toInt64_toUInt64] at hread
    exact htagged 4 _ hread
  | double bits =>
    cases hxs
    exact htagged 5 _ ((readU64_accepts bits).map PoolValue.double)
  | other r => cases hxs

/-- No two constants of the table are equal. -/
def Separate (constants : List PoolValue) : Prop :=
  constants.Pairwise fun a b => constantsEqual a b = false

theorem chunkAddConstant_new {constants : List PoolValue}
    (hnew : ∀ a ∈ constants, constantsEqual a v = false) :
    (chunkAddConstant constants v).2 = constants ++ [v] := by
  have hnone : constants.findIdx? (constantsEqual · v) = none :=
    List.findIdx?_eq_none_iff.2 hnew
  rw [chunkAddConstant, hnone]

/-- What `slp_chunk_add_constant` makes has no two equal constants. -/
theorem separate_add {constants : List PoolValue} (hsep : Separate constants) (v : PoolValue) :
    Separate (chunkAddConstant constants v).2 := by
  cases hfound : constants.findIdx? (constantsEqual · v) with
  | some i =>
    rw [chunkAddConstant, hfound]
    exact hsep
  | none =>
    have hnew := List.findIdx?_eq_none_iff.1 hfound
    rw [chunkAddConstant_new hnew]
    refine List.pairwise_append.2 ⟨hsep, List.pairwise_singleton _ _, ?_⟩
    intro a ha b hb
    rw [List.mem_singleton.1 hb]
    exact hnew a ha

theorem separate_foldl (vs : List PoolValue) {constants : List PoolValue}
    (hsep : Separate constants) :
    Separate (vs.foldl (fun constants v => (chunkAddConstant constants v).2) constants) := by
  induction vs generalizing constants with
  | nil => exact hsep
  | cons v vs ih => exact ih (separate_add hsep v)

/-- The constants made again, with the addresses from `address` on. -/
def relocateFrom (address : ℕ) : List PoolValue → List PoolValue
  | [] => []
  | v :: vs => v.relocate address :: relocateFrom (address + 1) vs

theorem length_relocateFrom (address : ℕ) (vs : List PoolValue) :
    (relocateFrom address vs).length = vs.length := by
  induction vs generalizing address with
  | nil => rfl
  | cons v vs ih => rw [relocateFrom, List.length_cons, ih, List.length_cons]

theorem getElem?_relocateFrom (address : ℕ) (vs : List PoolValue) (i : ℕ) :
    (relocateFrom address vs)[i]? = vs[i]?.map (PoolValue.relocate (address + i)) := by
  induction vs generalizing address i with
  | nil => rfl
  | cons v vs ih =>
    cases i with
    | zero => rfl
    | succ i =>
      rw [relocateFrom, List.getElem?_cons_succ, List.getElem?_cons_succ, ih]
      rw [Nat.add_assoc, Nat.add_comm 1 i]

/-- Strings made again are different objects; other constants are equal as before. -/
theorem constantsEqual_relocate {a b : PoolValue} {i j : Ref} (hij : i ≠ j)
    (hab : constantsEqual a b = false) :
    constantsEqual (a.relocate i) (b.relocate j) = false := by
  cases a with
  | string r s =>
    cases b with
    | string r' s' => exact beq_eq_false_iff_ne.2 hij
    | _ => rfl
  | _ =>
    cases b with
    | string r' s' => rfl
    | _ => exact hab

/-- Constants that are written are read back into the table, at the indices they had. -/
theorem readConstants_reads {vs : List PoolValue} (hxs : serializeConstants vs = some xs)
    (hbuf : ∀ r s, .string r s ∈ vs → Buffered s.chars) {constants : List PoolValue}
    (hsep : Separate (constants ++ relocateFrom address vs)) :
    Reads (readConstants vs.length address constants) xs
      (constants ++ relocateFrom address vs) := by
  induction vs generalizing xs address constants with
  | nil =>
    cases hxs
    rw [relocateFrom, List.append_nil]
    exact Reads.pure _
  | cons v vs ih =>
    rw [serializeConstants] at hxs
    cases hv : serializeValue v with
    | none =>
      rw [hv] at hxs
      cases hxs
    | some ys =>
      cases hvs : serializeConstants vs with
      | none =>
        rw [hv, hvs] at hxs
        cases hxs
      | some zs =>
        rw [hv, hvs] at hxs
        cases hxs
        -- the constant is not equal to one that is in the table
        have hnew : ∀ a ∈ constants, constantsEqual a (v.relocate address) = false := by
          intro a ha
          exact (List.pairwise_append.1 hsep).2.2 a ha _ List.mem_cons_self
        have hfirst : Reads (deserializeValue address) ys (v.relocate address) :=
          deserializeValue_reads hv fun r s hs => hbuf r s (hs ▸ List.mem_cons_self)
        have happend : constants ++ relocateFrom address (v :: vs) =
            constants ++ [v.relocate address] ++ relocateFrom (address + 1) vs := by
          rw [relocateFrom, List.append_assoc]
          rfl
        rw [happend] at hsep ⊢
        have hrest := ih hvs (fun r s hs => hbuf r s (List.mem_cons_of_mem _ hs)) hsep
        rw [← chunkAddConstant_new hnew] at hrest
        rw [← chunkAddConstant_new hnew]
        exact hfirst.bind hrest

theorem separate_relocateFrom {vs : List PoolValue} (hsep : Separate vs) (address : ℕ) :
    Separate (relocateFrom address vs) := by
  induction vs generalizing address with
  | nil => exact List.Pairwise.nil
  | cons v vs ih =>
    obtain ⟨hv, hvs⟩ := List.pairwise_cons.1 hsep
    refine List.pairwise_cons.2 ⟨?_, ih hvs (address + 1)⟩
    intro b hb
    obtain ⟨i, hi⟩ := List.mem_iff_getElem?.1 hb
    rw [getElem?_relocateFrom] at hi
    obtain ⟨w, hw, rfl⟩ := Option.map_eq_some_iff.1 hi
    exact constantsEqual_relocate
      (Nat.ne_of_lt (Nat.lt_of_lt_of_le (Nat.lt_succ_self address) (Nat.le_add_right _ i)))
      (hv w (List.mem_of_getElem? hw))

/-! ### Constants that do not come back -/

theorem chunkAddConstant_cases (constants : List PoolValue) (v : PoolValue) :
    (chunkAddConstant constants v).2 = constants ∨
      (chunkAddConstant constants v).2 = constants ++ [v] := by
  rw [chunkAddConstant]
  cases constants.findIdx? (constantsEqual · v) with
  | some i => exact .inl rfl
  | none => exact .inr rfl

/-- Each round adds at most one constant, at the end. -/
theorem readConstants_grows (n : ℕ) (address : Ref) (constants : List PoolValue) (c : Cursor) :
    constants <+: ((readConstants n address constants).run c).1 ∧
      ((readConstants n address constants).run c).1.length ≤ constants.length + n := by
  induction n generalizing address constants c with
  | zero => exact ⟨List.prefix_rfl, Nat.le_refl _⟩
  | succ n ih =>
    generalize hw : (deserializeValue address).run c = w
    have hrun : (readConstants (n + 1) address constants).run c =
        (readConstants n (address + 1) (chunkAddConstant constants w.1).2).run w.2 := by
      rw [readConstants, StateT.run_bind, hw]
      rfl
    obtain ⟨hpre, hlen⟩ := ih (address + 1) (chunkAddConstant constants w.1).2 w.2
    rw [hrun]
    rcases chunkAddConstant_cases constants w.1 with hsame | hnew
    · rw [hsame] at hpre hlen ⊢
      exact ⟨hpre, by omega⟩
    · rw [hnew] at hpre hlen ⊢
      rw [List.length_append, List.length_singleton] at hlen
      exact ⟨(List.prefix_append _ _).trans hpre, by omega⟩

theorem readConstants_add (k n : ℕ) (address : ℕ) (constants : List PoolValue) (c : Cursor) :
    (readConstants (k + n) address constants).run c =
      (readConstants n (address + k) ((readConstants k address constants).run c).1).run
        ((readConstants k address constants).run c).2 := by
  induction k generalizing address constants c with
  | zero =>
    rw [Nat.zero_add]
    rfl
  | succ k ih =>
    rw [Nat.succ_add, readConstants, StateT.run_bind, readConstants, StateT.run_bind,
      ← Nat.add_assoc, Nat.add_right_comm]
    exact ih (address + 1) _ _

theorem serializeConstants_append {vs ws : List PoolValue}
    (hxs : serializeConstants (vs ++ ws) = some xs) :
    ∃ ys zs, serializeConstants vs = some ys ∧ serializeConstants ws = some zs ∧ xs = ys ++ zs := by
  induction vs generalizing xs with
  | nil => exact ⟨[], xs, rfl, hxs, rfl⟩
  | cons v vs ih =>
    rw [List.cons_append, serializeConstants] at hxs
    cases hv : serializeValue v with
    | none =>
      rw [hv] at hxs
      cases hxs
    | some vbytes =>
      cases hrest : serializeConstants (vs ++ ws) with
      | none =>
        rw [hv, hrest] at hxs
        cases hxs
      | some rest =>
        rw [hv, hrest] at hxs
        cases hxs
        obtain ⟨ys, zs, hys, hzs, rfl⟩ := ih hrest
        refine ⟨vbytes ++ ys, zs, ?_, hzs, (List.append_assoc _ _ _).symm⟩
        rw [serializeConstants, hv, hys]
        rfl

/-- A string constant whose text can not be read is read as null. -/
theorem deserializeValue_null {r : Ref} {s : PoolString} (hlen : ¬Buffered s.chars)
    (hxs : serializeValue (.string r s) = some xs) (before after : Bytes) :
    ((deserializeValue address).run ⟨before ++ xs ++ after, before.length⟩).1 = .null := by
  cases hxs
  have hvalue : Rejects (readValue address)
      ([3] ++ (writeU32 (UInt32.ofNat s.chars.length) ++ s.chars)) :=
    ((readU8_accepts 3).follows (readTagged address)).rejects
      (((readU32_accepts _).follows _).rejects ((readText_rejects hlen).bind _))
  exact congrArg (·.getD .null) (hvalue before after)

/-- The first string whose text can not be read. -/
theorem exists_first_unreadable {vs : List PoolValue}
    (hbuf : ¬∀ r s, .string r s ∈ vs → Buffered s.chars) :
    ∃ good r s rest, vs = good ++ .string r s :: rest ∧ ¬Buffered s.chars ∧
      ∀ r s, .string r s ∈ good → Buffered s.chars := by
  induction vs with
  | nil =>
    refine absurd ?_ hbuf
    intro r s hs
    cases hs
  | cons v vs ih =>
    by_cases hv : ∃ r s, v = .string r s ∧ ¬Buffered s.chars
    · obtain ⟨r, s, rfl, hs⟩ := hv
      refine ⟨[], r, s, vs, rfl, hs, ?_⟩
      intro r s hs
      cases hs
    · have hfirst : ∀ r s, v = .string r s → Buffered s.chars := by
        intro r s hs
        by_contra hno
        exact hv ⟨r, s, hs, hno⟩
      have hlater : ¬∀ r s, .string r s ∈ vs → Buffered s.chars := by
        intro hall
        refine hbuf fun r s hs => ?_
        rcases List.mem_cons.1 hs with hs | hs
        · exact hfirst r s hs.symm
        · exact hall r s hs
      obtain ⟨good, r, s, rest, rfl, hs, hgood⟩ := ih hlater
      refine ⟨v :: good, r, s, rest, rfl, hs, ?_⟩
      intro r s hs
      rcases List.mem_cons.1 hs with hs | hs
      · exact hfirst r s hs.symm
      · exact hgood r s hs

/-- With a string whose text can not be read, the table that is read is another one: null is put in
place of the string, or nothing if the table has a null. -/
theorem readConstants_ne {vs : List PoolValue} (hsep : Separate vs)
    (hxs : serializeConstants vs = some xs)
    (hbuf : ¬∀ r s, .string r s ∈ vs → Buffered s.chars) (before after : Bytes) :
    ¬(((readConstants vs.length 0 []).run ⟨before ++ xs ++ after, before.length⟩).1.length =
        vs.length ∧ ∀ (i : ℕ) (v : PoolValue), vs[i]? = some v → ∃ address,
          ((readConstants vs.length 0 []).run ⟨before ++ xs ++ after, before.length⟩).1[i]? =
            some (v.relocate address)) := by
  obtain ⟨good, r, s, rest, rfl, hs, hgood⟩ := exists_first_unreadable hbuf
  obtain ⟨ys, zs, hys, hzs, rfl⟩ := serializeConstants_append hxs
  obtain ⟨us, ws, hus, hws, rfl⟩ := serializeConstants_append
    (show serializeConstants ([.string r s] ++ rest) = some zs from hzs)
  have hstring : serializeValue (.string r s) = some us := by
    rw [serializeConstants] at hus
    cases hv : serializeValue (.string r s) with
    | none =>
      rw [hv] at hus
      cases hus
    | some bytes =>
      rw [hv] at hus
      cases hus
      rw [List.append_nil]
  -- up to the string the table is as it was
  have hsepGood : Separate ([] ++ relocateFrom 0 good) :=
    separate_relocateFrom (List.pairwise_append.1 hsep).1 0
  have hread := readConstants_reads hys hgood hsepGood before (us ++ ws ++ after)
  have hnull : ((deserializeValue (0 + good.length)).run
      ⟨before ++ ys ++ us ++ (ws ++ after), (before ++ ys).length⟩).1 = .null :=
    deserializeValue_null hs hstring (before ++ ys) (ws ++ after)
  have hdata : before ++ (ys ++ (us ++ ws)) ++ after = before ++ ys ++ (us ++ ws ++ after) := by
    simp only [List.append_assoc]
  have hdata' : before ++ ys ++ us ++ (ws ++ after) = before ++ ys ++ (us ++ ws ++ after) := by
    simp only [List.append_assoc]
  rw [List.nil_append] at hread
  rw [hdata', List.length_append] at hnull
  have hlen : (good ++ .string r s :: rest).length = good.length + (rest.length + 1) := by
    rw [List.length_append, List.length_cons]
  rw [hdata, hlen, readConstants_add, hread]
  dsimp only
  rw [readConstants, StateT.run_bind]
  generalize (deserializeValue (0 + good.length)).run
    ⟨before ++ ys ++ (us ++ ws ++ after), before.length + ys.length⟩ = read at hnull ⊢
  obtain ⟨w, c⟩ := read
  obtain rfl : w = .null := hnull
  rintro ⟨hlength, hentries⟩
  change ((readConstants rest.length _ _).run c).1.length = _ at hlength
  obtain ⟨hpre, hgrow⟩ := readConstants_grows rest.length (0 + good.length + 1)
    (chunkAddConstant (relocateFrom 0 good) .null).2 c
  rcases chunkAddConstant_cases (relocateFrom 0 good) .null with hsame | hnew
  · rw [hsame, length_relocateFrom] at hgrow
    rw [hsame] at hlength
    omega
  · have hat : (good ++ .string r s :: rest)[good.length]? = some (.string r s) := by
      rw [List.getElem?_append_right (Nat.le_refl _), Nat.sub_self]
      rfl
    obtain ⟨address, hentry⟩ := hentries _ _ hat
    rw [hnew] at hpre
    have hnullAt : (relocateFrom 0 good ++ [PoolValue.null])[good.length]? = some .null := by
      rw [List.getElem?_append_right (length_relocateFrom 0 good).le, length_relocateFrom,
        Nat.sub_self]
      rfl
    obtain ⟨later, hlater⟩ := hpre
    change ((readConstants rest.length _ _).run c).1[good.length]? = _ at hentry
    rw [hnew, ← hlater, List.getElem?_append_left, hnullAt] at hentry
    · cases hentry
    · rw [List.length_append, length_relocateFrom]
      exact Nat.lt_succ_self _

end Constants

section Functions

variable {f : PoolFunction} {xs bytes : Bytes}

theorem readCode_accepts (code : List UInt8) : Accepts (readCode code.length) code code := by
  induction code with
  | nil => exact Accepts.pure []
  | cons b code ih => exact (readU8_accepts b).bind (ih.map (b :: ·))

theorem ofNat_toNat {n : ℕ} (hn : n < 2 ^ 31) : (UInt32.ofNat n).toNat = n :=
  UInt32.toNat_ofNat_of_lt' (Nat.lt_trans hn (by decide))

/-- The name that comes back: a string if there are bytes. -/
def readBack (name : Option PoolString) : Option PoolString :=
  if (nameChars name).length > 0 then name else none

theorem nameChars_readBack (name : Option PoolString) :
    nameChars (readBack name) = nameChars name := by
  unfold readBack
  split_ifs with hlen
  · rfl
  · exact (List.length_eq_zero_iff.1 (Nat.eq_zero_of_not_pos hlen)).symm

theorem length_nameChars_lt (name : Option PoolString) : (nameChars name).length < 2 ^ 32 := by
  cases name with
  | none => exact Nat.two_pow_pos 32
  | some s => exact s.length_lt

theorem ofNat_pos_iff {n : ℕ} (hn : n < 2 ^ 32) : UInt32.ofNat n > 0 ↔ n > 0 := by
  rw [gt_iff_lt, UInt32.lt_iff_toNat_lt, UInt32.toNat_ofNat_of_lt' hn]
  rfl

theorem readName_accepts (name : Option PoolString) (hbuf : Buffered (nameChars name)) :
    Accepts (readName (UInt32.ofNat (nameChars name).length)) (nameChars name)
      (readBack name) := by
  have hlt := length_nameChars_lt name
  unfold readName readBack
  by_cases hpos : (nameChars name).length > 0
  · rw [if_pos ((ofNat_pos_iff hlt).2 hpos), if_pos hpos]
    have hread := (readText_accepts hlt hbuf).map poolString
    have hname : poolString (nameChars name) = name := by
      cases name with
      | none => exact absurd hpos (Nat.lt_irrefl 0)
      | some s => exact poolString_chars s
    rwa [hname] at hread
  · rw [if_neg (mt (ofNat_pos_iff hlt).1 hpos), if_neg hpos]
    have hnil := List.length_eq_zero_iff.1 (Nat.eq_zero_of_not_pos hpos)
    rw [hnil]
    exact Accepts.pure none

theorem readName_rejects (name : Option PoolString) (hbuf : ¬Buffered (nameChars name)) :
    Rejects (readName (UInt32.ofNat (nameChars name).length)) (nameChars name) := by
  have hpos : (nameChars name).length > 0 := by
    rw [Buffered, not_not] at hbuf
    rw [hbuf]
    decide
  rw [readName, if_pos ((ofNat_pos_iff (length_nameChars_lt name)).2 hpos)]
  exact (readText_rejects hbuf).bind _

/-- The bytes up to the name. -/
def heading (f : PoolFunction) : Bytes :=
  writeU32 magic ++ (writeU32 version ++ (writeU32 (UInt32.ofNat (nameChars f.name).length) ++
    nameChars f.name))

/-- The bytes between the name and the constants. -/
def middle (f : PoolFunction) : Bytes :=
  [UInt8.ofNat f.arity] ++ ([UInt8.ofNat f.upvalueCount] ++
    (writeU32 (UInt32.ofNat f.chunk.code.length) ++ (f.chunk.code ++
      writeU32 (UInt32.ofNat f.chunk.constants.length))))

theorem serializeFunction_eq (hbytes : serializeFunction f = some bytes) :
    ∃ xs, serializeConstants f.chunk.constants = some xs ∧
      bytes = heading f ++ (middle f ++ xs) := by
  rw [serializeFunction, serializeChunk] at hbytes
  cases hxs : serializeConstants f.chunk.constants with
  | none =>
    rw [hxs] at hbytes
    cases hbytes
  | some xs =>
    rw [hxs] at hbytes
    refine ⟨xs, rfl, ?_⟩
    rw [← Option.some.inj hbytes]
    simp only [heading, middle, List.append_assoc]

/-- The part of `slp_bytecode_deserialize_function` after the name. -/
def readRest (name : Option PoolString) : OptionT Decoder PoolFunction := do
  let arity ← readU8
  let upvalueCount ← readU8
  let chunk ← deserializeChunk
  return ⟨name, arity.toNat, upvalueCount.toNat, chunk⟩

/-- The magic number and the version pass. -/
theorem deserializeFunction_follows (nameLen : UInt32) :
    Follows deserializeFunction (writeU32 magic ++ (writeU32 version ++ writeU32 nameLen))
      (readName nameLen >>= readRest) := by
  refine ((readU32_accepts magic).follows _).trans ?_
  rw [if_neg (not_not.2 rfl)]
  refine ((readU32_accepts version).follows _).trans ?_
  rw [if_neg (not_not.2 rfl)]
  exact (readU32_accepts nameLen).follows _

/-- Up to the constants: a function with the constants that the loop makes of the next bytes. -/
theorem readRest_follows (name : Option PoolString) (hcompiled : f.Compiled)
    (harity : f.arity < 256) (hupvalues : f.upvalueCount < 256) :
    Follows (readRest name) (middle f) (do
      let constants ← readConstants f.chunk.constants.length 0 []
      return ⟨name, f.arity, f.upvalueCount, f.chunk.code, constants⟩) := by
  have hcode : Accepts (readCode (UInt32.ofNat f.chunk.code.length).toNat) f.chunk.code
      f.chunk.code := by
    rw [ofNat_toNat hcompiled.code_lt]
    exact readCode_accepts f.chunk.code
  have hchunk : Follows deserializeChunk (writeU32 (UInt32.ofNat f.chunk.code.length) ++
      (f.chunk.code ++ writeU32 (UInt32.ofNat f.chunk.constants.length))) (do
        let constants ← readConstants f.chunk.constants.length 0 []
        return ⟨f.chunk.code, constants⟩) := by
    refine ((readU32_accepts _).follows _).trans (Follows.trans (hcode.follows _) ?_)
    have hcount := (readU32_accepts (UInt32.ofNat f.chunk.constants.length)).follows
      fun n => do
        let constants ← readConstants n.toNat 0 []
        return (⟨f.chunk.code, constants⟩ : PoolChunk)
    rwa [ofNat_toNat hcompiled.constants_lt] at hcount
  refine ((readU8_accepts (UInt8.ofNat f.arity)).follows _).trans ?_
  refine ((readU8_accepts (UInt8.ofNat f.upvalueCount)).follows _).trans ?_
  rw [UInt8.toNat_ofNat_of_lt' harity, UInt8.toNat_ofNat_of_lt' hupvalues]
  have hbind := hchunk.bind fun chunk =>
    pure (⟨name, f.arity, f.upvalueCount, chunk⟩ : PoolFunction)
  simpa only [bind_assoc, pure_bind] using hbind

/-- A function whose name can be read: the constants decide. -/
theorem deserializeFunction_named (hcompiled : f.Compiled) (harity : f.arity < 256)
    (hupvalues : f.upvalueCount < 256) (hname : Buffered (nameChars f.name)) :
    Follows deserializeFunction (heading f ++ middle f) (do
      let constants ← readConstants f.chunk.constants.length 0 []
      return ⟨readBack f.name, f.arity, f.upvalueCount, f.chunk.code, constants⟩) := by
  have hread := (deserializeFunction_follows _).trans
    ((readName_accepts f.name hname).follows readRest)
  rw [heading, ← List.append_assoc (writeU32 version), ← List.append_assoc (writeU32 magic)]
  exact hread.trans (readRest_follows _ hcompiled harity hupvalues)

/-- A name of `2 ^ 32 - 1` bytes is not read. -/
theorem deserializeFunction_unnamed (hname : ¬Buffered (nameChars f.name)) :
    Rejects deserializeFunction (heading f) := by
  have hread := (deserializeFunction_follows _).rejects
    ((readName_rejects f.name hname).bind readRest)
  simpa only [heading, List.append_assoc] using hread

/-- The run over the written bytes, up to the constants. -/
theorem run_constants (xs suffix : Bytes) (hcompiled : f.Compiled) (harity : f.arity < 256)
    (hupvalues : f.upvalueCount < 256) (hname : Buffered (nameChars f.name)) :
    deserializeFunction.run.run ⟨heading f ++ (middle f ++ xs) ++ suffix, 0⟩ =
      ((readConstants f.chunk.constants.length 0 []).run
        ⟨heading f ++ middle f ++ xs ++ suffix, (heading f ++ middle f).length⟩).map
        (fun constants => some
          ⟨readBack f.name, f.arity, f.upvalueCount, f.chunk.code, constants⟩) id := by
  have hfollows := deserializeFunction_named hcompiled harity hupvalues hname [] (xs ++ suffix)
  simp only [List.nil_append, ← List.append_assoc, List.length_nil] at hfollows ⊢
  exact hfollows

theorem separate_of_compiled (hcompiled : f.Compiled) :
    Separate f.chunk.constants := by
  obtain ⟨vs, hvs⟩ := hcompiled.added
  rw [hvs]
  exact separate_foldl vs List.Pairwise.nil

theorem roundTrips_of_readable (hcompiled : f.Compiled) (hbytes : serializeFunction f = some bytes)
    (harity : f.arity < 256) (hupvalues : f.upvalueCount < 256) (hreadable : Readable f) :
    RoundTrips f bytes := by
  obtain ⟨xs, hxs, rfl⟩ := serializeFunction_eq hbytes
  intro suffix
  have hsep : Separate ([] ++ relocateFrom 0 f.chunk.constants) :=
    separate_relocateFrom (separate_of_compiled hcompiled) 0
  have hread := readConstants_reads hxs hreadable.constants hsep (heading f ++ middle f) suffix
  rw [List.nil_append] at hread
  refine ⟨⟨readBack f.name, f.arity, f.upvalueCount, f.chunk.code,
    relocateFrom 0 f.chunk.constants⟩, ?_, nameChars_readBack f.name, rfl, rfl, rfl,
    length_relocateFrom 0 _, ?_⟩
  · rw [run_constants xs suffix hcompiled harity hupvalues hreadable.name, hread]
    simp only [Prod.map, id, List.append_assoc, List.length_append, Nat.add_assoc]
  · intro i v hv
    refine ⟨0 + i, ?_⟩
    show (relocateFrom 0 f.chunk.constants)[i]? = _
    rw [getElem?_relocateFrom, hv]
    rfl

theorem readable_of_roundTrips (hcompiled : f.Compiled) (hbytes : serializeFunction f = some bytes)
    (harity : f.arity < 256) (hupvalues : f.upvalueCount < 256) (htrips : RoundTrips f bytes) :
    Readable f := by
  obtain ⟨xs, hxs, rfl⟩ := serializeFunction_eq hbytes
  obtain ⟨g, hrun, -, -, -, -, hlength, hentries⟩ := htrips []
  have hname : Buffered (nameChars f.name) := by
    by_contra hname
    have hnone := deserializeFunction_unnamed hname [] (middle f ++ xs ++ [])
    rw [List.nil_append, ← List.append_assoc, List.length_nil, hrun] at hnone
    cases hnone
  refine ⟨hname, ?_⟩
  by_contra hconstants
  rw [run_constants xs [] hcompiled harity hupvalues hname] at hrun
  have hg : g.chunk.constants = ((readConstants f.chunk.constants.length 0 []).run
      ⟨heading f ++ middle f ++ xs ++ [], (heading f ++ middle f).length⟩).1 := by
    rw [← Option.some.inj (congrArg Prod.fst hrun)]
    rfl
  rw [hg] at hlength hentries
  exact readConstants_ne (separate_of_compiled hcompiled) hxs hconstants _ _ ⟨hlength, hentries⟩

/-- **Round trip.**  A written function is read back, from its bytes before any others, exactly if
neither its name nor a string constant has `2 ^ 32 - 1` bytes. -/
theorem roundTrips_iff (hcompiled : f.Compiled) (hbytes : serializeFunction f = some bytes)
    (harity : f.arity < 256) (hupvalues : f.upvalueCount < 256) :
    RoundTrips f bytes ↔ Readable f :=
  ⟨readable_of_roundTrips hcompiled hbytes harity hupvalues,
    roundTrips_of_readable hcompiled hbytes harity hupvalues⟩

end Functions

/-- `return "a" . 1;` -/
def returnText : PoolFunction where
  name := some ⟨[0x66], by decide⟩
  arity := 0
  upvalueCount := 0
  chunk := ⟨[3, 0, 0, 3, 0, 1, 37, 75, 0, 75],
    [.string 0 ⟨[0x61], by decide⟩, .num 0x3FF0000000000000]⟩

theorem roundTrips_iff_returnText :
    (RoundTrips returnText ((serializeFunction returnText).getD []) ↔ Readable returnText) ∧
      (serializeFunction returnText).isSome :=
  ⟨roundTrips_iff ⟨by decide, by decide, returnText.chunk.constants, by decide⟩
    (by decide) (by decide) (by decide), by decide⟩

/-- A literal with one character less than there are lengths. -/
def longText : PoolString := ⟨List.replicate (2 ^ 32 - 1) 0x61, by
  rw [List.length_replicate]
  decide⟩

/-- `return "aaa…";`, with this literal. -/
def returnLongText : PoolFunction where
  name := none
  arity := 0
  upvalueCount := 0
  chunk := ⟨[3, 0, 0, 75, 0, 75], [.string 0 longText]⟩

/-- The literal comes back as null. -/
theorem not_roundTrips_returnLongText :
    ¬∀ (f : PoolFunction) (bytes : Bytes), f.Compiled → serializeFunction f = some bytes →
      f.arity < 256 → f.upvalueCount < 256 → RoundTrips f bytes := by
  intro hall
  have hcompiled : returnLongText.Compiled :=
    ⟨by decide, Nat.one_lt_two_pow (by decide), [.string 0 longText], rfl⟩
  have hbytes : ∃ bytes, serializeFunction returnLongText = some bytes := ⟨_, rfl⟩
  obtain ⟨bytes, hbytes⟩ := hbytes
  have hreadable := readable_of_roundTrips hcompiled hbytes (Nat.two_pow_pos 8)
    (Nat.two_pow_pos 8) (hall _ _ hcompiled hbytes (Nat.two_pow_pos 8) (Nat.two_pow_pos 8))
  exact hreadable.constants 0 longText List.mem_cons_self List.length_replicate

end Codec

end Slp
