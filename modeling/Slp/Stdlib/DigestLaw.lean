import Slp.Stdlib.Digest

/-!
# What a digest is made of

* `padded` : a message with the standard padding and its length in bits;
* `Digests` : the digest is what the compression function makes of the blocks of the padded message,
  one after another, whatever the parts the message comes in;
* `WithinWord` : the last end of a block in a part is so near to its start that the index of the loop
  does not overflow when 63 is added;
* `digests_iff` : **the digest is that of the padded message exactly if this is so for every part.**

`Absorbed` says what a context has taken, and `Counts` what its count means.
-/

namespace Slp

namespace Digest

/-! ### The padded message -/

/-- The number of zeros in the padding. -/
def zeros (length : ℕ) : ℕ := (119 - length % 64) % 64

/-- The message, a one bit, zeros, and the number of its bits in eight bytes. -/
def padded (big : Bool) (message : Bytes) : Bytes :=
  message ++ 0x80 :: List.replicate (zeros message.length) 0 ++
    writeWord 8 (8 * message.length) big

/-- The padded message consists of whole blocks. -/
theorem length_padded (big : Bool) (message : Bytes) : (padded big message).length % 64 = 0 := by
  simp only [padded, List.length_append, List.length_cons, List.length_replicate, length_writeWord,
    zeros]
  omega

/-- What the count of a context means. -/
structure Counts {C : Type} (k : Counter C) (big : Bool) (rep : C → ℕ → Prop) : Prop where
  zero : rep k.zero 0
  add : ∀ {c n len}, rep c n → len < 2 ^ 32 → rep (k.add c (.ofNat len)) (n + len)
  index : ∀ {c n}, rep c n → k.index c = n % 64
  bits : ∀ {c n}, rep c n → n < 2 ^ 61 → k.bits c = writeWord 8 (8 * n) big

section Laws

variable {S C : Type} {k : Counter C} {transform : S → Bytes → S} {big : Bool}
  {rep : C → ℕ → Prop} {encode : S → Bytes} {init : S} {buffer : Buffer}

variable (transform) in
/-- The state after the blocks of a message. -/
def stateOf (init : S) (message : Bytes) : S := (blocks 64 message).foldl transform init

variable (k transform big encode init buffer) in
/-- The digest is that of the padded message. -/
def Digests (parts : List Input) : Prop :=
  digestOf k transform encode init buffer parts =
    some (encode (stateOf transform init (padded big (parts.flatMap Subtype.val))))

/-- The last end of a block in `len` bytes behind `idx` bytes of the block before is no more than
`2 ^ 32 - 64` bytes in. -/
def WithinWord (idx len : ℕ) : Prop := 64 ≤ idx + len → len - (idx + len) % 64 ≤ 2 ^ 32 - 64

instance (idx len : ℕ) : Decidable (WithinWord idx len) := inferInstanceAs (Decidable (_ → _))

/-- Every part is within a word; `n` bytes were taken before. -/
def AllWithin : (n : ℕ) → List Input → Prop
  | _, [] => True
  | n, part :: parts => WithinWord (n % 64) part.1.length ∧ AllWithin (n + part.1.length) parts

instance AllWithin.decidable : (n : ℕ) → (parts : List Input) → Decidable (AllWithin n parts)
  | _, [] => .isTrue trivial
  | n, part :: parts =>
    have := AllWithin.decidable (n + part.1.length) parts
    inferInstanceAs (Decidable (_ ∧ _))

/-! ### The buffer -/

/-- What is written is behind what was there. -/
theorem exists_write (b : Buffer) {idx : ℕ} {bytes : Bytes} (h : idx + bytes.length ≤ 64) :
    ∃ b', b.write idx bytes = some b' ∧
      b'.1.take (idx + bytes.length) = b.1.take idx ++ bytes := by
  refine ⟨_, dif_pos h, ?_⟩
  have hlen : (b.1.take idx ++ bytes).length = idx + bytes.length := by
    rw [List.length_append, List.length_take, b.2, Nat.min_eq_left (by omega)]
  exact List.take_left' hlen

theorem slice_eq {input : Bytes} {i n : ℕ} (h : i + n ≤ input.length) :
    slice input i n = some ((input.drop i).take n) := if_pos h

/-! ### The loop -/

/-- The loop takes the whole blocks, if its index does not overflow. -/
theorem transformLoop_eq {input : Bytes} (hinput : input.length < 2 ^ 32) {i : ℕ}
    (hi : i ≤ input.length) (state : S) :
    transformLoop transform input i state =
      if input.length - (input.length - i) % 64 ≤ 2 ^ 32 - 64 then
        some (input.length - (input.length - i) % 64,
          (blocks 64 (input.drop i)).foldl transform state)
      else none := by
  induction hn : input.length - i using Nat.strong_induction_on generalizing i state with
  | _ n ih =>
    subst hn
    rw [transformLoop]
    rcases Nat.lt_or_ge input.length (i + 64) with hlt | hge
    · -- the rest is shorter than a block
      have hmod : (input.length - i) % 64 = input.length - i := Nat.mod_eq_of_lt (by omega)
      have hstop : input.length - (input.length - i) = i := by omega
      rw [hmod, hstop, blocks_of_lt (by rw [List.length_drop]; omega), List.foldl_nil]
      split_ifs with hcond hroom hroom
      · omega
      · omega
      · omega
      · rfl
      · rfl
      · omega
    · have hmod : (input.length - (i + 64)) % 64 = (input.length - i) % 64 := by omega
      have hblocks : blocks 64 (input.drop i) =
          (input.drop i).take 64 :: blocks 64 (input.drop (i + 64)) := by
        rw [blocks_cons (by decide) (by rw [List.length_drop]; omega), List.drop_drop]
      rw [if_pos (by omega), if_pos hge, ih _ (by omega) hge _ rfl, hmod, hblocks, List.foldl_cons]

/-! ### What an update takes -/

section Absorb

variable {idx : ℕ} {taken input : Bytes} (state : S)

/-- A part that does not fill the buffer is put behind what is there. -/
theorem absorb_of_lt (hb : buffer.1.take idx = taken) (hlt : idx + input.length < 64) :
    ∃ b, absorb transform idx input state buffer = some (state, b) ∧
      b.1.take (idx + input.length) = taken ++ input := by
  obtain ⟨b, hwrite, htake⟩ := exists_write buffer hlt.le
  refine ⟨b, ?_, by rw [htake, hb]⟩
  rw [absorb, if_neg (by omega), hwrite]
  rfl

/-- The blocks of a part that fills the buffer end at this index. -/
def lastEnd (idx len : ℕ) : ℕ := len - (idx + len) % 64

theorem lastEnd_le (idx len : ℕ) : lastEnd idx len ≤ len := Nat.sub_le _ _

theorem sub_lastEnd {len : ℕ} (hge : 64 ≤ idx + len) (hidx : idx < 64) :
    len - lastEnd idx len = (idx + len) % 64 ∧
      64 * ((idx + len) / 64) = idx + lastEnd idx len := by
  unfold lastEnd
  omega

/-- The end of a part is put into the buffer. -/
theorem exists_rest (b : Buffer) (htaken : taken.length = idx) (hidx : idx < 64)
    (hge : 64 ≤ idx + input.length) :
    ∃ rest b', slice input (lastEnd idx input.length)
        (input.length - lastEnd idx input.length) = some rest ∧ b.write 0 rest = some b' ∧
      b'.1.take ((idx + input.length) % 64) = residue 64 (taken ++ input) := by
  obtain ⟨hrest, hend⟩ := sub_lastEnd hge hidx
  have hle := lastEnd_le idx input.length
  generalize lastEnd idx input.length = stop at *
  have hlen : (input.drop stop).length = (idx + input.length) % 64 := by
    rw [List.length_drop, hrest]
  have hmod : (idx + input.length) % 64 < 64 := Nat.mod_lt _ (by decide)
  obtain ⟨b', hwrite, htake⟩ := exists_write b (show 0 + (input.drop stop).length ≤ 64 by omega)
  refine ⟨input.drop stop, b', ?_, hwrite, ?_⟩
  · rw [slice_eq (by omega), List.take_of_length_le (by rw [List.length_drop])]
  · rw [hlen, Nat.zero_add, List.take_zero, List.nil_append] at htake
    have hdrop : taken.length ≤ 64 * ((idx + input.length) / 64) := by omega
    have hskip : 64 * ((idx + input.length) / 64) - taken.length = stop := by omega
    rw [htake, residue, List.length_append, htaken, List.drop_append, List.drop_of_length_le hdrop,
      List.nil_append, hskip]

/-- The loop over the blocks of a part that fills the buffer. -/
theorem transformLoop_part (hidx : idx < 64) (hge : 64 ≤ idx + input.length)
    (hinput : input.length < 2 ^ 32) (state : S) :
    transformLoop transform input (64 - idx) state =
      if WithinWord idx input.length then
        some (lastEnd idx input.length, (blocks 64 (input.drop (64 - idx))).foldl transform state)
      else none := by
  have hmod : (input.length - (64 - idx)) % 64 = (idx + input.length) % 64 := by omega
  have hiff : WithinWord idx input.length ↔ lastEnd idx input.length ≤ 2 ^ 32 - 64 :=
    ⟨fun h => h hge, fun h _ => h⟩
  rw [transformLoop_eq hinput (by omega), hmod]
  simp only [hiff, lastEnd]

/-- A part that fills the buffer: the blocks are compressed, and what is behind them is put into the
buffer. -/
theorem absorb_of_ge (hb : buffer.1.take idx = taken) (htaken : taken.length = idx)
    (hidx : idx < 64) (hge : 64 ≤ idx + input.length) (hinput : input.length < 2 ^ 32)
    (hwithin : WithinWord idx input.length) :
    ∃ b, absorb transform idx input state buffer =
        some ((blocks 64 (taken ++ input)).foldl transform state, b) ∧
      b.1.take ((idx + input.length) % 64) = residue 64 (taken ++ input) := by
  have hfirst : (input.take (64 - idx)).length = 64 - idx := by
    rw [List.length_take]
    omega
  obtain ⟨b, hwrite, htake⟩ := exists_write buffer
    (show idx + (input.take (64 - idx)).length ≤ 64 by omega)
  obtain ⟨rest, b', hslice, hwrite', htake'⟩ := exists_rest b htaken hidx hge
  -- the buffer is the first block
  have hfull : b.1 = taken ++ input.take (64 - idx) := by
    rw [← hb, ← htake, hfirst, List.take_of_length_le (by rw [b.2]; omega)]
  have hblocks : blocks 64 (taken ++ input) = b.1 :: blocks 64 (input.drop (64 - idx)) := by
    rw [blocks_cons (by decide) (by rw [List.length_append]; omega), hfull, List.take_append,
      List.drop_append, htaken, List.take_of_length_le (by omega),
      List.drop_of_length_le (by omega), List.nil_append]
  refine ⟨b', ?_, htake'⟩
  rw [absorb, if_pos (by omega), slice_eq (by omega), List.drop_zero, hblocks, List.foldl_cons]
  simp only [Option.bind_eq_bind, Option.bind_some, hwrite, transformLoop_part hidx hge hinput,
    if_pos hwithin, hslice, hwrite']
  rfl

/-- Where the index of the loop overflows, bytes behind the part are read. -/
theorem absorb_eq_none (hidx : idx < 64) (hinput : input.length < 2 ^ 32)
    (hwithin : ¬WithinWord idx input.length) : absorb transform idx input state buffer = none := by
  have hge : 64 ≤ idx + input.length := by
    by_contra hlt
    exact hwithin fun hge => absurd hge hlt
  obtain ⟨b, hwrite, -⟩ := exists_write buffer
    (show idx + (input.take (64 - idx)).length ≤ 64 by rw [List.length_take]; omega)
  rw [absorb, if_pos (by omega), slice_eq (by omega), List.drop_zero]
  simp only [Option.bind_eq_bind, Option.bind_some, hwrite, transformLoop_part hidx hge hinput,
    if_neg hwithin, Option.bind_none]

end Absorb

/-! ### What a context has taken -/

variable (transform rep init) in
/-- The context has taken the message. -/
structure Absorbed (message : Bytes) (ctx : Context S C) : Prop where
  state : ctx.state = stateOf transform init message
  buffer : ctx.buffer.1.take (message.length % 64) = residue 64 message
  count : rep ctx.count message.length

theorem stateOf_append (message input : Bytes) : stateOf transform init (message ++ input) =
    (blocks 64 (residue 64 message ++ input)).foldl transform (stateOf transform init message) := by
  rw [stateOf, blocks_append (by decide), List.foldl_append]
  rfl

/-- An update takes its part, if it is within a word. -/
theorem Absorbed.update {message : Bytes} {ctx : Context S C} (hk : Counts k big rep)
    (hctx : Absorbed transform rep init message ctx) (input : Input)
    (hwithin : WithinWord (message.length % 64) input.1.length) :
    ∃ ctx', Digest.update k transform ctx input = some ctx' ∧
      Absorbed transform rep init (message ++ input.1) ctx' := by
  have hidx : message.length % 64 < 64 := Nat.mod_lt _ (by decide)
  have hmod : (message ++ input.1).length % 64 = (message.length % 64 + input.1.length) % 64 := by
    rw [List.length_append, Nat.mod_add_mod]
  have htaken := length_residue 64 message
  have hcount : rep (k.add ctx.count (.ofNat input.1.length)) (message ++ input.1).length := by
    rw [List.length_append]
    exact hk.add hctx.count input.2
  rcases Nat.lt_or_ge (message.length % 64 + input.1.length) 64 with hlt | hge
  · obtain ⟨b, habsorb, htake⟩ := @absorb_of_lt _ transform _ _ _ _ ctx.state hctx.buffer hlt
    have hshort : (residue 64 message ++ input.1).length < 64 := by
      rwa [List.length_append, htaken]
    refine ⟨_, by rw [Digest.update, hk.index hctx.count, habsorb]; rfl, ?_, ?_, hcount⟩
    · rw [stateOf_append, blocks_of_lt hshort]
      exact hctx.state
    · rw [hmod, Nat.mod_eq_of_lt hlt, residue_append (by decide), residue_of_lt hshort]
      exact htake
  · obtain ⟨b, habsorb, htake⟩ := @absorb_of_ge _ transform _ _ _ _ ctx.state hctx.buffer htaken hidx
      hge input.2 hwithin
    refine ⟨_, by rw [Digest.update, hk.index hctx.count, habsorb]; rfl, ?_, ?_, hcount⟩
    · rw [stateOf_append, ← hctx.state]
    · rw [hmod, residue_append (by decide)]
      exact htake

theorem Absorbed.update_eq_none {message : Bytes} {ctx : Context S C} (hk : Counts k big rep)
    (hctx : Absorbed transform rep init message ctx) (input : Input)
    (hwithin : ¬WithinWord (message.length % 64) input.1.length) :
    Digest.update k transform ctx input = none := by
  rw [Digest.update, hk.index hctx.count,
    absorb_eq_none ctx.state (Nat.mod_lt _ (by decide)) input.2 hwithin]
  rfl

/-- The parts of a message are taken one after another, if all are within a word. -/
theorem Absorbed.updates {message : Bytes} {ctx : Context S C} (hk : Counts k big rep)
    (hctx : Absorbed transform rep init message ctx) {parts : List Input}
    (hall : AllWithin message.length parts) :
    ∃ ctx', parts.foldlM (Digest.update k transform) ctx = some ctx' ∧
      Absorbed transform rep init (message ++ parts.flatMap Subtype.val) ctx' := by
  induction parts generalizing message ctx with
  | nil => exact ⟨ctx, rfl, by rwa [List.flatMap_nil, List.append_nil]⟩
  | cons part parts ih =>
    obtain ⟨hwithin, hrest⟩ := hall
    obtain ⟨ctx₁, hupdate, hctx₁⟩ := hctx.update hk part hwithin
    obtain ⟨ctx', hupdates, hctx'⟩ := ih hctx₁ (by rwa [List.length_append])
    refine ⟨ctx', ?_, by rwa [List.flatMap_cons, ← List.append_assoc]⟩
    rw [List.foldlM_cons, hupdate]
    exact hupdates

theorem Absorbed.updates_eq_none {message : Bytes} {ctx : Context S C} (hk : Counts k big rep)
    (hctx : Absorbed transform rep init message ctx) {parts : List Input}
    (hall : ¬AllWithin message.length parts) :
    parts.foldlM (Digest.update k transform) ctx = none := by
  induction parts generalizing message ctx with
  | nil => exact absurd trivial hall
  | cons part parts ih =>
    rw [List.foldlM_cons]
    by_cases hwithin : WithinWord (message.length % 64) part.1.length
    · obtain ⟨ctx₁, hupdate, hctx₁⟩ := hctx.update hk part hwithin
      rw [hupdate]
      exact ih hctx₁ fun hrest => hall ⟨hwithin, by rwa [List.length_append] at hrest⟩
    · rw [hctx.update_eq_none hk part hwithin]
      rfl

/-! ### The end of a message -/

/-- The padding fills up all but eight bytes of a block. -/
theorem padding_take (length : ℕ) :
    padding.take (if length % 64 < 56 then 56 - length % 64 else 120 - length % 64) =
      0x80 :: List.replicate (zeros length) 0 := by
  have hzeros : (if length % 64 < 56 then 56 - length % 64 else 120 - length % 64) =
      zeros length + 1 := by
    unfold zeros
    split_ifs <;> omega
  have hle : zeros length ≤ 63 := by
    unfold zeros
    omega
  rw [hzeros, padding, List.take_succ_cons, List.take_replicate, Nat.min_eq_left hle]

theorem withinWord_of_le {idx len : ℕ} (hlen : len ≤ 64) : WithinWord idx len := fun _ => by omega

/-- The digest of a context that has taken a message. -/
theorem Absorbed.final {message : Bytes} {ctx : Context S C} (hk : Counts k big rep)
    (hctx : Absorbed transform rep init message ctx) (hlen : message.length < 2 ^ 61) :
    Digest.final k transform encode ctx =
      some (encode (stateOf transform init (padded big message))) := by
  have hpad : padding.take (if message.length % 64 < 56 then 56 - message.length % 64
      else 120 - message.length % 64) = 0x80 :: List.replicate (zeros message.length) 0 :=
    padding_take message.length
  obtain ⟨ctx₁, hupdate₁, hctx₁⟩ := hctx.update hk
    ⟨0x80 :: List.replicate (zeros message.length) 0, by rw [← hpad]; exact length_padding_take _⟩
    (withinWord_of_le (by
      rw [List.length_cons, List.length_replicate]
      exact Nat.mod_lt _ (by decide)))
  obtain ⟨ctx₂, hupdate₂, hctx₂⟩ := hctx₁.update hk
    ⟨writeWord 8 (8 * message.length) big, by rw [length_writeWord]; decide⟩
    (withinWord_of_le (by rw [length_writeWord]; decide))
  have hbits := hk.bits hctx.count hlen
  rw [Digest.final]
  simp only [hk.index hctx.count, hbits, hpad, hupdate₁, hupdate₂, Option.bind_eq_bind,
    Option.bind_some, hctx₂.state]
  rfl

/-- **The digest is that of the padded message exactly if every part is within a word.** -/
theorem digests_iff (hk : Counts k big rep) (encode : S → Bytes) (init : S) (buffer : Buffer)
    (parts : List Input) (hlen : (parts.flatMap Subtype.val).length < 2 ^ 61) :
    Digests k transform big encode init buffer parts ↔ AllWithin 0 parts := by
  have hstart : Absorbed transform rep init [] ⟨init, k.zero, buffer⟩ :=
    ⟨rfl, rfl, hk.zero⟩
  rw [Digests, digestOf]
  by_cases hall : AllWithin 0 parts
  · obtain ⟨ctx, hupdates, hctx⟩ := hstart.updates hk hall
    rw [List.nil_append] at hctx
    rw [hupdates]
    exact iff_of_true (hctx.final hk hlen) hall
  · rw [hstart.updates_eq_none hk hall]
    exact iff_of_false nofun hall

end Laws

/-! ### The two counters -/

/-- The count of `MD5` is that of the bits, in two words. -/
theorem counts_md5 : Counts md5Counter false
    fun c n => c.1.toNat + 2 ^ 32 * c.2.toNat = 8 * n % 2 ^ 64 where
  zero := rfl
  add {c n len} hc hlen := by
    have hlow := c.1.toNat_lt
    have hhigh := c.2.toNat_lt
    have hshift : (UInt32.ofNat len <<< 3).toNat = len * 8 % 2 ^ 32 := by
      rw [UInt32.toNat_shiftLeft, UInt32.toNat_ofNat', Nat.mod_eq_of_lt hlen]
      show len <<< 3 % 2 ^ 32 = _
      rw [Nat.shiftLeft_eq]
    have hover : (UInt32.ofNat len >>> 29).toNat = len / 2 ^ 29 := by
      rw [UInt32.toNat_shiftRight, UInt32.toNat_ofNat', Nat.mod_eq_of_lt hlen]
      show len >>> 29 = _
      rw [Nat.shiftRight_eq_div_pow]
    simp only [md5Counter, UInt32.toNat_add, UInt32.lt_iff_toNat_lt, hshift, hover]
    split_ifs with hcarry
    · rw [UInt32.toNat_add, show (1 : UInt32).toNat = 1 from rfl]
      omega
    · omega
  index {c n} hc := by
    have hlow := c.1.toNat_lt
    have hindex : md5Counter.index c = c.1.toNat / 8 % 64 := by
      show (c.1 >>> 3 &&& 0x3F).toNat = _
      rw [UInt32.toNat_and, UInt32.toNat_shiftRight]
      show c.1.toNat >>> 3 &&& 2 ^ 6 - 1 = _
      rw [Nat.and_two_pow_sub_one_eq_mod, Nat.shiftRight_eq_div_pow]
    rw [hindex]
    omega
  bits {c n} hc hn := by
    have hlow := c.1.toNat_lt
    have hmod : 8 * n % 256 ^ 4 = c.1.toNat := by omega
    have hdiv : 8 * n / 256 ^ 4 = c.2.toNat := by omega
    show _ = writeWord (4 + 4) (8 * n) false
    rw [writeWord_add, hmod, hdiv]
    rfl

theorem counts_sha256 : Counts sha256Counter true fun c n => c.toNat = n % 2 ^ 64 where
  zero := rfl
  add {c n len} hc hlen := by
    have hlen' : (UInt32.ofNat len).toUInt64.toNat = len := by
      rw [UInt32.toNat_toUInt64, UInt32.toNat_ofNat', Nat.mod_eq_of_lt hlen]
    show (c + (UInt32.ofNat len).toUInt64).toNat = _
    rw [UInt64.toNat_add, hlen', hc, Nat.mod_add_mod]
  index {c n} hc := by
    show (c &&& 63).toUInt32.toNat = _
    rw [UInt64.toNat_toUInt32, UInt64.toNat_and]
    show (c.toNat &&& 2 ^ 6 - 1) % 2 ^ 32 = _
    rw [Nat.and_two_pow_sub_one_eq_mod, hc]
    omega
  bits {c n} hc hn := by
    show writeWord 8 (c <<< 3).toNat true = _
    rw [UInt64.toNat_shiftLeft]
    show writeWord 8 (c.toNat <<< 3 % 2 ^ 64) true = _
    rw [Nat.shiftLeft_eq, hc]
    congr 1
    omega

/-! ### The two digests -/

/-- `MD5` and `SHA-256` of a message that comes in parts are the digests of the padded message,
whatever their compression functions are. -/
def DigestLaw {S T : Type} (md5 : S → Bytes → S) (sha256 : T → Bytes → T) (encode : S → Bytes)
    (encode' : T → Bytes) (init : S) (init' : T) (buffer buffer' : Buffer) (parts : List Input) :
    Prop :=
  Digests md5Counter md5 false encode init buffer parts ∧
    Digests sha256Counter sha256 true encode' init' buffer' parts

/-- **`MD5` and `SHA-256` digest the padded message exactly if every part is within a word.** -/
theorem digestLaw_iff {S T : Type} (md5 : S → Bytes → S) (sha256 : T → Bytes → T)
    (encode : S → Bytes) (encode' : T → Bytes) (init : S) (init' : T) (buffer buffer' : Buffer)
    (parts : List Input) (hlen : (parts.flatMap Subtype.val).length < 2 ^ 61) :
    DigestLaw md5 sha256 encode encode' init init' buffer buffer' parts ↔ AllWithin 0 parts := by
  rw [DigestLaw, digests_iff counts_md5 encode init buffer parts hlen,
    digests_iff counts_sha256 encode' init' buffer' parts hlen, and_self]

/-- A buffer of zeros. -/
def zeroBuffer : Buffer := ⟨List.replicate 64 0, List.length_replicate⟩

/-- The text `abc`. -/
def abc : Input := ⟨ascii "abc", by decide⟩

theorem digestLaw_iff_abc :
    DigestLaw md5Transform sha256Transform md5Encode sha256Encode md5Init sha256Init zeroBuffer
      zeroBuffer [abc, abc] ↔ AllWithin 0 [abc, abc] :=
  digestLaw_iff _ _ _ _ _ _ _ _ _ (by decide)

/-- A part of `len` zeros. -/
def zeroPart (len : ℕ) (h : len < 2 ^ 32) : Input :=
  ⟨List.replicate len 0, by rwa [List.length_replicate]⟩

/-- A part that ends with a block has to be short enough to add 63 to its length. -/
theorem not_digests_zeroPart {len : ℕ} (h : len < 2 ^ 32) (hlen : ¬WithinWord 1 len) :
    ¬Digests md5Counter md5Transform false md5Encode md5Init zeroBuffer
      [zeroPart 1 (by decide), zeroPart len h] := by
  have htotal : ([zeroPart 1 (by decide), zeroPart len h].flatMap Subtype.val).length < 2 ^ 61 := by
    simp only [List.flatMap_cons, List.flatMap_nil, zeroPart, List.length_append,
      List.length_replicate, List.length_nil]
    omega
  rw [digests_iff counts_md5 md5Encode md5Init zeroBuffer _ htotal]
  rintro ⟨-, hwithin, -⟩
  refine hlen ?_
  simpa only [zeroPart, List.length_replicate] using hwithin

/-- A part of `2 ^ 32 - 1` bytes behind one byte: the end of its last block is the last index there
is, and 63 more overflow. -/
theorem not_digestLaw : ¬DigestLaw md5Transform sha256Transform md5Encode sha256Encode md5Init
    sha256Init zeroBuffer zeroBuffer
    [zeroPart 1 (by decide), zeroPart (2 ^ 32 - 1) (by decide)] :=
  fun hlaw => not_digests_zeroPart (by decide) (by decide) hlaw.1

/-! ### The function `digest` -/

/-- A text in one part is within a word. -/
theorem allWithin_single (input : Input) : AllWithin 0 [input] := by
  refine ⟨fun hge => ?_, trivial⟩
  have hlen := input.2
  omega

/-- **The function `digest` gives the digest of the padded text.** -/
theorem digest_eq (buffer : Buffer) (text : Input) (algo : Option Bytes) :
    digest buffer text algo = some (
      if strcmp (algo.getD (ascii "MD5")) (ascii "SHA-256") = .eq ∨
          strcmp (algo.getD (ascii "MD5")) (ascii "SHA256") = .eq then
        (sha256Encode (stateOf sha256Transform sha256Init (padded true text.1))).flatMap hexByte
      else (md5Encode (stateOf md5Transform md5Init (padded false text.1))).flatMap hexByte) := by
  have hflat : [text].flatMap Subtype.val = text.1 := by
    rw [List.flatMap_singleton]
  have hlen : ([text].flatMap Subtype.val).length < 2 ^ 61 := by
    rw [hflat]
    exact text.2.trans (by decide)
  have hsha := (@digests_iff _ _ _ sha256Transform _ _ counts_sha256 sha256Encode sha256Init buffer
    [text] hlen).2 (allWithin_single text)
  have hmd5 := (@digests_iff _ _ _ md5Transform _ _ counts_md5 md5Encode md5Init buffer [text] hlen).2 (allWithin_single text)
  rw [Digests, hflat] at hsha hmd5
  rw [digest, hsha, hmd5]
  split_ifs <;> rfl

/-- The digest of `abc`. -/
example : digest zeroBuffer abc none = some (ascii "900150983cd24fb0d6963f7d28e17f72") := by
  decide +kernel

end Digest

end Slp
