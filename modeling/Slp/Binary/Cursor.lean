import Mathlib.Algebra.Order.Group.Nat
import Mathlib.Data.Int.Notation
import Mathlib.Data.List.Induction
import Mathlib.Data.Nat.Bitwise

/-!
# Reading bytes

A cursor over a sequence of bytes, computations that read from it, and numbers in big-endian bytes.

`Reads d xs a` says that the computation `d` takes the bytes `xs` for `a`, wherever they stand, and
moves past them.  It is proved for a whole format by composition: `Reads.bind` for one part after
another, and `Accepts.bind` where a part can fail.
-/

namespace Slp

/-- A place in a sequence of bytes. -/
structure Cursor where
  data : List UInt8
  offset : ℕ
  deriving DecidableEq, Repr

/-- A computation that reads bytes. -/
abbrev Decoder := StateM Cursor

namespace Decoder

variable {α β : Type} {xs ys : List UInt8} {a : α} {b : β}

/-- The bytes `xs`, wherever they stand, are read as `a`. -/
def Reads (d : Decoder α) (xs : List UInt8) (a : α) : Prop :=
  ∀ before after : List UInt8, d.run ⟨before ++ xs ++ after, before.length⟩ =
    (a, ⟨before ++ xs ++ after, before.length + xs.length⟩)

/-- The same for a computation that can fail. -/
def Accepts (d : OptionT Decoder α) (xs : List UInt8) (a : α) : Prop := Reads d.run xs (some a)

theorem Reads.pure (a : α) : Reads (pure a) [] a := by
  intro before after
  rfl

/-- One part after another. -/
theorem Reads.bind {d : Decoder α} {f : α → Decoder β} (hd : Reads d xs a)
    (hf : Reads (f a) ys b) : Reads (d >>= f) (xs ++ ys) b := by
  intro before after
  have hfirst := hd before (ys ++ after)
  have hsecond := hf (before ++ xs) after
  rw [List.length_append] at hsecond
  have hdata : before ++ (xs ++ ys) ++ after = before ++ xs ++ (ys ++ after) := by
    simp only [List.append_assoc]
  have hdata' : before ++ xs ++ ys ++ after = before ++ xs ++ (ys ++ after) := by
    simp only [List.append_assoc]
  rw [hdata'] at hsecond
  rw [StateT.run_bind, hdata, hfirst, List.length_append, ← Nat.add_assoc]
  exact hsecond

theorem Accepts.pure (a : α) : Accepts (pure a) [] a := Reads.pure (some a)

/-- The rest of a computation, if its first part did not fail. -/
def andThen (f : α → OptionT Decoder β) : Option α → Decoder (Option β)
  | some a => (f a).run
  | none => Pure.pure none

theorem run_bind (d : OptionT Decoder α) (f : α → OptionT Decoder β) :
    (d >>= f).run = d.run >>= andThen f := by
  show (do match ← d.run with
    | some a => (f a).run
    | none => Pure.pure none) = _
  congr 1

/-- The computation fails at the bytes `xs`, wherever they stand. -/
def Rejects (d : OptionT Decoder α) (xs : List UInt8) : Prop :=
  ∀ before after : List UInt8, (d.run.run ⟨before ++ xs ++ after, before.length⟩).1 = none

/-- After the bytes `xs` the computation runs on as `e`. -/
def Follows (d : OptionT Decoder α) (xs : List UInt8) (e : OptionT Decoder α) : Prop :=
  ∀ before after : List UInt8, d.run.run ⟨before ++ xs ++ after, before.length⟩ =
    e.run.run ⟨before ++ xs ++ after, (before ++ xs).length⟩

theorem Accepts.follows {d : OptionT Decoder α} (hd : Accepts d xs a)
    (f : α → OptionT Decoder β) : Follows (d >>= f) xs (f a) := by
  intro before after
  rw [run_bind, StateT.run_bind, hd before after, List.length_append]
  rfl

/-- A cursor before two pieces, and the cursor between them. -/
theorem Follows.run_eq {d e : OptionT Decoder α} (hd : Follows d xs e)
    (before after : List UInt8) : d.run.run ⟨before ++ (xs ++ ys) ++ after, before.length⟩ =
      e.run.run ⟨before ++ xs ++ ys ++ after, (before ++ xs).length⟩ := by
  have hrest := hd before (ys ++ after)
  simp only [List.append_assoc] at hrest ⊢
  exact hrest

theorem Follows.trans {d e e' : OptionT Decoder α} (hd : Follows d xs e)
    (he : Follows e ys e') : Follows d (xs ++ ys) e' := by
  intro before after
  rw [hd.run_eq, he (before ++ xs) after]
  simp only [List.append_assoc]

theorem Follows.accepts {d e : OptionT Decoder α} (hd : Follows d xs e) (he : Accepts e ys a) :
    Accepts d (xs ++ ys) a := by
  intro before after
  have hlast := he (before ++ xs) after
  rw [hd.run_eq]
  refine hlast.trans ?_
  simp only [List.append_assoc, List.length_append, Nat.add_assoc]

theorem Follows.rejects {d e : OptionT Decoder α} (hd : Follows d xs e) (he : Rejects e ys) :
    Rejects d (xs ++ ys) := by
  intro before after
  rw [hd.run_eq]
  exact he (before ++ xs) after

theorem Follows.bind {d e : OptionT Decoder α} (hd : Follows d xs e) (f : α → OptionT Decoder β) :
    Follows (d >>= f) xs (e >>= f) := by
  intro before after
  rw [run_bind, run_bind, StateT.run_bind, StateT.run_bind, hd before after]

theorem Accepts.bind {d : OptionT Decoder α} {f : α → OptionT Decoder β} (hd : Accepts d xs a)
    (hf : Accepts (f a) ys b) : Accepts (d >>= f) (xs ++ ys) b :=
  (hd.follows f).accepts hf

/-- The second part reads nothing. -/
theorem Accepts.bind_nil {d : OptionT Decoder α} {f : α → OptionT Decoder β} {xs : List UInt8} {a : α}
    {b : β} (hd : Accepts d xs a) (hf : Accepts (f a) [] b) : Accepts (d >>= f) xs b := by
  have h := hd.bind hf
  rwa [List.append_nil] at h

theorem Rejects.bind {d : OptionT Decoder α} (hd : Rejects d xs) (f : α → OptionT Decoder β) :
    Rejects (d >>= f) xs := by
  intro before after
  have hnone := hd before after
  rw [run_bind, StateT.run_bind]
  generalize d.run.run ⟨before ++ xs ++ after, before.length⟩ = r at hnone ⊢
  obtain ⟨o, c⟩ := r
  subst hnone
  rfl

/-- The last part needs no bytes. -/
theorem Accepts.map {d : OptionT Decoder α} (hd : Accepts d xs a) (f : α → β) :
    Accepts (do return f (← d)) xs (f a) := by
  have hbind := hd.bind (f := fun a => Pure.pure (f a)) (Accepts.pure (f a))
  rwa [List.append_nil] at hbind

/-- The next `len` bytes. -/
def take (len : ℕ) : OptionT Decoder (List UInt8) := do
  let c ← get
  if c.offset + len > c.data.length then failure
  else
    set { c with offset := c.offset + len }
    return (c.data.drop c.offset).take len

theorem run_take (len : ℕ) (c : Cursor) : (take len).run.run c =
    if c.offset + len > c.data.length then (none, c)
    else (some ((c.data.drop c.offset).take len), { c with offset := c.offset + len }) := by
  show ((if c.offset + len > c.data.length then failure else do
    set ({ c with offset := c.offset + len } : Cursor)
    return (c.data.drop c.offset).take len : OptionT Decoder (List UInt8)).run.run c) = _
  split_ifs <;> rfl

theorem accepts_take (xs : List UInt8) : Accepts (take xs.length) xs xs := by
  intro before after
  rw [run_take, if_neg]
  · rw [List.append_assoc, List.drop_left, List.take_left]
  · simp only [List.length_append]
    omega

/-! ### What was read -/

/-- If the computation succeeds, it has taken bytes that it has read as `P` says. -/
def Yields (d : OptionT Decoder α) (P : List UInt8 → α → Prop) : Prop :=
  ∀ (before rest : List UInt8) (a : α) (c : Cursor),
    d.run.run ⟨before ++ rest, before.length⟩ = (some a, c) → ∃ xs after, rest = xs ++ after ∧
      c = ⟨before ++ rest, (before ++ xs).length⟩ ∧ P xs a

section Yields

variable {P : List UInt8 → α → Prop} {Q : α → List UInt8 → β → Prop}

theorem Yields.pure (a : α) : Yields (pure a) fun xs b => xs = [] ∧ b = a := by
  intro before rest b c hrun
  obtain ⟨hb, rfl⟩ := Prod.mk.inj hrun
  exact ⟨[], rest, rfl, by rw [List.append_nil], rfl, (Option.some.inj hb).symm⟩

theorem Yields.failure (P : List UInt8 → α → Prop) : Yields failure P := by
  intro before rest a c hrun
  cases hrun

/-- If a computation of two parts succeeds, both have. -/
theorem exists_of_run_bind {d : OptionT Decoder α} {f : α → OptionT Decoder β} {c c' : Cursor}
    (hrun : (d >>= f).run.run c = (some b, c')) :
    ∃ a c₁, d.run.run c = (some a, c₁) ∧ (f a).run.run c₁ = (some b, c') := by
  rw [run_bind, StateT.run_bind] at hrun
  generalize hfirst : d.run.run c = r at hrun
  obtain ⟨o, c₁⟩ := r
  cases o with
  | none => cases hrun
  | some a => exact ⟨a, c₁, rfl, hrun⟩

/-- One part after another. -/
theorem Yields.bind {d : OptionT Decoder α} {f : α → OptionT Decoder β} (hd : Yields d P)
    (hf : ∀ a, Yields (f a) (Q a)) :
    Yields (d >>= f) fun zs b => ∃ xs a ys, zs = xs ++ ys ∧ P xs a ∧ Q a ys b := by
  intro before rest b c hrun
  obtain ⟨a, c₁, hfirst, hsecond⟩ := exists_of_run_bind hrun
  obtain ⟨xs, after, rfl, rfl, hP⟩ := hd before rest a c₁ hfirst
  -- the second part starts behind the bytes of the first
  rw [← List.append_assoc] at hsecond
  obtain ⟨ys, after', rfl, rfl, hQ⟩ := hf a (before ++ xs) after b c hsecond
  exact ⟨xs ++ ys, after', by rw [List.append_assoc], by simp, xs, a, ys, rfl, hP, hQ⟩

theorem Yields.mono {d : OptionT Decoder α} {P' : List UInt8 → α → Prop} (hd : Yields d P)
    (hP : ∀ xs a, P xs a → P' xs a) : Yields d P' := by
  intro before rest a c hrun
  obtain ⟨xs, after, hrest, hc, ha⟩ := hd before rest a c hrun
  exact ⟨xs, after, hrest, hc, hP xs a ha⟩

theorem Yields.ite {d e : OptionT Decoder α} {p : Prop} [Decidable p] (hd : p → Yields d P)
    (he : ¬p → Yields e P) : Yields (if p then d else e) P := by
  split_ifs with hp
  · exact hd hp
  · exact he hp

/-- The result is computed from what was read. -/
theorem Yields.map {d : OptionT Decoder α} (hd : Yields d P) (f : α → β) :
    Yields (do return f (← d)) fun xs b => ∃ a, P xs a ∧ b = f a := by
  refine (hd.bind (f := fun a => Pure.pure (f a)) fun a => Yields.pure (f a)).mono ?_
  rintro zs b ⟨xs, a, ys, rfl, hP, rfl, rfl⟩
  rw [List.append_nil]
  exact ⟨a, hP, rfl⟩

theorem yields_take (len : ℕ) : Yields (take len) fun xs ys => xs.length = len ∧ ys = xs := by
  intro before rest ys c hrun
  rw [run_take] at hrun
  split_ifs at hrun with hlen
  · cases hrun
  · obtain ⟨hys, rfl⟩ := Prod.mk.inj hrun
    rw [List.drop_left, Option.some.injEq] at hys
    dsimp only at hlen
    rw [List.length_append] at hlen
    have htake : (rest.take len).length = len := by
      rw [List.length_take]
      omega
    exact ⟨rest.take len, rest.drop len, (List.take_append_drop len rest).symm,
      by rw [List.length_append, htake], htake, hys.symm⟩

/-- The computation takes bytes that are there, and leaves the data alone. -/
def Stays (d : Decoder α) : Prop :=
  ∀ c : Cursor, c.offset ≤ c.data.length → (d.run c).2.data = c.data ∧
    (d.run c).2.offset ≤ c.data.length

theorem Stays.pure (a : α) : Stays (pure a) := fun _ hc => ⟨rfl, hc⟩

theorem Stays.bind {d : Decoder α} {f : α → Decoder β} (hd : Stays d) (hf : ∀ a, Stays (f a)) :
    Stays (d >>= f) := by
  intro c hc
  rw [StateT.run_bind]
  obtain ⟨hdata, hoffset⟩ := hd c hc
  obtain ⟨hdata', hoffset'⟩ := hf (d.run c).1 (d.run c).2 (by rwa [hdata])
  rw [hdata] at hdata' hoffset'
  exact ⟨hdata', hoffset'⟩

theorem Stays.bindT {d : OptionT Decoder α} {f : α → OptionT Decoder β} (hd : Stays d.run)
    (hf : ∀ a, Stays (f a).run) : Stays (d >>= f).run := by
  rw [run_bind]
  refine hd.bind fun o => ?_
  cases o with
  | none => exact Stays.pure none
  | some a => exact hf a

theorem Stays.failure : Stays (failure : OptionT Decoder α).run := Stays.pure none

theorem stays_take (len : ℕ) : Stays (take len).run := by
  intro c hc
  rw [run_take]
  split_ifs with hlen
  · exact ⟨rfl, hc⟩
  · exact ⟨rfl, Nat.not_lt.1 hlen⟩

end Yields

end Decoder

/-! ### Numbers -/

/-- The last `n` digits of a number to the base 256, the most significant one first. -/
def bigEndian : (n : ℕ) → ℕ → List UInt8
  | 0, _ => []
  | n + 1, x => bigEndian n (x / 256) ++ [UInt8.ofNat x]

/-- The number with these digits. -/
def ofBigEndian (xs : List UInt8) : ℕ := xs.foldl (fun x b => x * 256 + b.toNat) 0

theorem ofBigEndian_append (xs : List UInt8) (b : UInt8) :
    ofBigEndian (xs ++ [b]) = ofBigEndian xs * 256 + b.toNat := by
  rw [ofBigEndian, List.foldl_append]
  rfl

theorem ofBigEndian_lt (xs : List UInt8) : ofBigEndian xs < 256 ^ xs.length := by
  induction xs using List.reverseRec with
  | nil => exact Nat.one_pos
  | append_singleton xs b ih =>
    have hb : b.toNat < 256 := b.toNat_lt
    rw [ofBigEndian_append, List.length_append, List.length_singleton, Nat.pow_succ]
    omega

/-- Every byte is a digit. -/
theorem bigEndian_ofBigEndian (xs : List UInt8) : bigEndian xs.length (ofBigEndian xs) = xs := by
  induction xs using List.reverseRec with
  | nil => rfl
  | append_singleton xs b ih =>
    have hb : b.toNat < 256 := b.toNat_lt
    have hquot : (ofBigEndian xs * 256 + b.toNat) / 256 = ofBigEndian xs := by omega
    have hdigit : UInt8.ofNat (ofBigEndian xs * 256 + b.toNat) = b := by
      rw [← UInt8.toNat_inj, UInt8.toNat_ofNat']
      omega
    rw [ofBigEndian_append, List.length_append, List.length_singleton, bigEndian, hquot, ih, hdigit]

theorem ofBigEndian_bigEndian (n x : ℕ) : ofBigEndian (bigEndian n x) = x % 256 ^ n := by
  induction n generalizing x with
  | zero => rw [Nat.pow_zero, Nat.mod_one]; rfl
  | succ n ih =>
    have hdigit : (UInt8.ofNat x).toNat = x % 256 := UInt8.toNat_ofNat'
    rw [bigEndian, ofBigEndian_append, ih, hdigit, Nat.pow_succ, Nat.mul_comm (256 ^ n) 256,
      Nat.mod_mul]
    omega

/-- A digit after the others. -/
theorem shiftLeft_or (x b : ℕ) (hb : b < 256) : x <<< 8 ||| b = x * 256 + b := by
  rw [← Nat.shiftLeft_add_eq_or_of_lt (show b < 2 ^ 8 from hb), Nat.shiftLeft_eq]

end Slp
