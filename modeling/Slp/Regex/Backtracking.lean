import Mathlib.Computability.Language
import Mathlib.Tactic.Common

/-!
# Backtracking

A backtracking matcher gives for a text what may be left of it behind a match, in the order in which
it tries.  What it may leave depends only on a language, as long as it does not commit itself to what
it has found first.

* `exactly`, `upTo`, `possessive`: repetitions, greedy or not, with or without giving back;
* `Reads`: what is left is what a word of the language leaves;
* `Reads.repeated`: a repetition that gives back reads the words of a number of factors.
-/

namespace Slp

namespace Regex

variable {α : Type*}

/-- What may be left of a text behind a match. -/
abbrev Matcher (α : Type*) := List α → List (List α)

namespace Matcher

/-- One element that satisfies a condition. -/
def single (P : α → Bool) : Matcher α
  | [] => []
  | c :: s => if P c then [s] else []

/-- One match behind the other. -/
def seq (f g : Matcher α) : Matcher α := fun s => (f s).flatMap g

/-- A number of matches. -/
def exactly (f : Matcher α) : ℕ → Matcher α
  | 0 => fun s => [s]
  | m + 1 => f.seq (exactly f m)

/-- As many matches as there are up to `max`, or, if it is `lazy`, as few.  A match of nothing is the
last one. -/
def upTo (f : Matcher α) (isLazy : Bool) : (max : Option ℕ) → (fuel : ℕ) → Matcher α
  | some 0, _, s => [s]
  | _, 0, s => [s]
  | max, fuel + 1, s =>
    let more := (f s).flatMap fun t =>
      if t.length < s.length then upTo f isLazy (max.map (· - 1)) fuel t else [t]
    if isLazy then s :: more else more ++ [s]

/-- From `min` to `max` matches. -/
def repeated (f : Matcher α) (isLazy : Bool) (min : ℕ) (max : Option ℕ) : Matcher α :=
  (f.exactly min).seq fun s => f.upTo isLazy (max.map (· - min)) s.length s

/-- The first match each time, `m` times. -/
def firsts (f : Matcher α) : ℕ → List α → Option (List α)
  | 0, s => some s
  | m + 1, s => (f s).head?.bind (firsts f m)

/-- The first match each time, as often as there is one, up to `max` times. -/
def asMany (f : Matcher α) : (max : Option ℕ) → (fuel : ℕ) → List α → List α
  | some 0, _, s => s
  | _, 0, s => s
  | max, fuel + 1, s =>
    match (f s).head? with
    | none => s
    | some t => if t.length < s.length then asMany f (max.map (· - 1)) fuel t else t

/-- From `min` to `max` matches that are not given back. -/
def possessive (f : Matcher α) (min : ℕ) (max : Option ℕ) : Matcher α := fun s =>
  match f.firsts min s with
  | none => []
  | some t => [f.asMany (max.map (· - min)) t.length t]

end Matcher

/-- The words that are made of so many words of a language as lie between the bounds. -/
def between (L : Language α) (min : ℕ) (max : Option ℕ) : Language α :=
  {u | ∃ k, min ≤ k ∧ (∀ n ∈ max, k ≤ n) ∧ u ∈ L ^ k}

/-- The words of one letter. -/
def letters (S : Set α) : Language α := {u | ∃ c ∈ S, u = [c]}

/-- The matcher leaves what a word of the language leaves. -/
def Reads (f : Matcher α) (L : Language α) : Prop := ∀ s t, t ∈ f s ↔ ∃ u ∈ L, s = u ++ t

variable {f g : Matcher α} {L K : Language α} {s t u : List α} {k m : ℕ} {max : Option ℕ}
  {isLazy : Bool}

/-- A matcher that reads a language matches the words of the language as a whole. -/
theorem Reads.nil_mem (hf : Reads f L) (s : List α) : [] ∈ f s ↔ s ∈ L := by
  rw [hf]
  simp

theorem reads_one : Reads (fun s : List α => [s]) 1 := by
  intro s t
  rw [List.mem_singleton]
  constructor
  · rintro rfl
    exact ⟨[], rfl, rfl⟩
  · rintro ⟨u, rfl, rfl⟩
    rfl

theorem reads_single (P : α → Bool) : Reads (Matcher.single P) (letters {c | P c}) := by
  intro s t
  cases s with
  | nil =>
    refine iff_of_false List.not_mem_nil ?_
    rintro ⟨u, ⟨c, -, rfl⟩, heq⟩
    cases heq
  | cons c s =>
    rw [Matcher.single]
    split_ifs with hc
    · rw [List.mem_singleton]
      constructor
      · rintro rfl
        exact ⟨[c], ⟨c, hc, rfl⟩, rfl⟩
      · rintro ⟨_, ⟨d, -, rfl⟩, heq⟩
        exact (List.cons.inj heq).2.symm
    · refine iff_of_false List.not_mem_nil ?_
      rintro ⟨_, ⟨d, hd, rfl⟩, heq⟩
      exact hc ((List.cons.inj heq).1 ▸ hd)

theorem Reads.seq (hf : Reads f L) (hg : Reads g K) : Reads (f.seq g) (L * K) := by
  intro s t
  simp only [Matcher.seq, List.mem_flatMap, hf _ _, hg _ _, Language.mem_mul]
  constructor
  · rintro ⟨_, ⟨u, hu, rfl⟩, v, hv, rfl⟩
    exact ⟨u ++ v, ⟨u, hu, v, hv, rfl⟩, (List.append_assoc u v t).symm⟩
  · rintro ⟨_, ⟨u, hu, v, hv, rfl⟩, rfl⟩
    exact ⟨v ++ t, ⟨u, hu, List.append_assoc u v t⟩, v, hv, rfl⟩

theorem Reads.alt (hf : Reads f L) (hg : Reads g K) : Reads (fun s => f s ++ g s) (L + K) := by
  intro s t
  simp only [List.mem_append, hf _ _, hg _ _, Language.mem_add, or_and_right, exists_or]

theorem Reads.exactly (hf : Reads f L) (m : ℕ) : Reads (f.exactly m) (L ^ m) := by
  induction m with
  | zero =>
    rw [pow_zero]
    exact reads_one
  | succ m ih =>
    rw [pow_succ']
    exact hf.seq ih

/-- A word of several factors starts with one that is not empty. -/
theorem exists_append_of_mem_pow (hu : u ∈ L ^ k) (hne : u ≠ []) :
    ∃ j < k, ∃ v ∈ L, v ≠ [] ∧ ∃ w ∈ L ^ j, v ++ w = u := by
  induction k generalizing u with
  | zero => exact absurd hu hne
  | succ k ih =>
    rw [pow_succ', Language.mem_mul] at hu
    obtain ⟨v, hv, w, hw, rfl⟩ := hu
    by_cases hempty : v = []
    · subst hempty
      rw [List.nil_append] at hne ⊢
      obtain ⟨j, hj, hrest⟩ := ih hw hne
      exact ⟨j, hj.trans (Nat.lt_succ_self k), hrest⟩
    · exact ⟨k, Nat.lt_succ_self k, v, hv, hempty, w, hw, rfl⟩

/-- A round of a repetition. -/
theorem mem_upTo_succ (hzero : max ≠ some 0) (fuel : ℕ) :
    t ∈ f.upTo isLazy max (fuel + 1) s ↔ s = t ∨ ∃ v ∈ f s,
      t ∈ if v.length < s.length then f.upTo isLazy (max.map (· - 1)) fuel v else [v] := by
  have hround : f.upTo isLazy max (fuel + 1) s =
      let more := (f s).flatMap fun v =>
        if v.length < s.length then f.upTo isLazy (max.map (· - 1)) fuel v else [v]
      if isLazy then s :: more else more ++ [s] := by
    cases max with
    | none => rfl
    | some n =>
      cases n with
      | zero => exact absurd rfl hzero
      | succ n => rfl
  rw [hround]
  cases isLazy <;> simp [or_comm, eq_comm]

/-- Some repetitions, at most `max`. -/
theorem Reads.mem_upTo (hf : Reads f L) {fuel : ℕ} (hfuel : s.length ≤ fuel) :
    t ∈ f.upTo isLazy max fuel s ↔ ∃ u ∈ between L 0 max, s = u ++ t := by
  have hstop : ∀ (s : List α) (max : Option ℕ), ∃ u ∈ between L 0 max, s = u ++ s := fun s max =>
    ⟨[], ⟨0, Nat.le_refl 0, fun n _ => Nat.zero_le n, rfl⟩, rfl⟩
  induction fuel generalizing s max with
  | zero =>
    obtain rfl := List.length_eq_zero_iff.1 (Nat.le_zero.1 hfuel)
    have hnil : f.upTo isLazy max 0 [] = [[]] := by
      cases max with
      | none => rfl
      | some n => cases n <;> rfl
    rw [hnil, List.mem_singleton]
    constructor
    · rintro rfl
      exact hstop [] max
    · rintro ⟨u, -, heq⟩
      exact (List.append_eq_nil_iff.1 heq.symm).2
  | succ fuel ih =>
    by_cases hzero : max = some 0
    · subst hzero
      rw [Matcher.upTo, List.mem_singleton]
      constructor
      · rintro rfl
        exact hstop t _
      · rintro ⟨u, ⟨k, -, hk, hu⟩, rfl⟩
        obtain rfl := Nat.le_zero.1 (hk 0 rfl)
        obtain rfl : u = [] := hu
        rfl
    · rw [mem_upTo_succ hzero]
      constructor
      · rintro (rfl | ⟨v, hv, hrest⟩)
        · exact hstop s max
        · obtain ⟨w, hw, rfl⟩ := (hf _ _).1 hv
          split_ifs at hrest with hlt
          · -- one factor more
            obtain ⟨u, ⟨k, -, hk, hu⟩, rfl⟩ := (ih (Nat.le_of_lt_succ (Nat.lt_of_lt_of_le hlt hfuel))).1 hrest
            refine ⟨w ++ u, ⟨k + 1, Nat.zero_le _, fun n hn => ?_, ?_⟩, (List.append_assoc w u t).symm⟩
            · subst hn
              have hle := hk (n - 1) rfl
              have hpos : n ≠ 0 := fun hn => hzero (congrArg some hn)
              omega
            · rw [pow_succ', Language.mem_mul]
              exact ⟨w, hw, u, hu, rfl⟩
          · obtain rfl := List.mem_singleton.1 hrest
            rw [List.length_append] at hlt
            obtain rfl : w = [] := List.length_eq_zero_iff.1 (by omega)
            exact hstop t max
      · rintro ⟨u, ⟨k, -, hk, hu⟩, rfl⟩
        by_cases hne : u = []
        · exact .inl (by rw [hne, List.nil_append])
        · -- the first factor that is not empty makes the text shorter
          obtain ⟨j, hj, v, hv, hvne, w, hw, rfl⟩ := exists_append_of_mem_pow hu hne
          refine .inr ⟨w ++ t, (hf _ _).2 ⟨v, hv, List.append_assoc v w t⟩, ?_⟩
          have hpos := List.length_pos_iff.2 hvne
          simp only [List.length_append] at hfuel ⊢
          rw [if_pos (by omega)]
          refine (ih (by rw [List.length_append]; omega)).2 ⟨w, ⟨j, Nat.zero_le j, fun n hn => ?_, hw⟩, rfl⟩
          obtain ⟨n', hn', rfl⟩ := Option.mem_map.1 hn
          have hle := hk n' hn'
          omega

/-- A repetition that gives back. -/
theorem Reads.repeated (hf : Reads f L) (isLazy : Bool) (min : ℕ) {max : Option ℕ}
    (hmax : ∀ n ∈ max, min ≤ n) : Reads (f.repeated isLazy min max) (between L min max) := by
  have hrest : Reads (fun s => f.upTo isLazy (max.map (· - min)) s.length s)
      (between L 0 (max.map (· - min))) := fun s t => hf.mem_upTo (Nat.le_refl _)
  have hseq := (hf.exactly min).seq hrest
  have hlanguage : L ^ min * between L 0 (max.map (· - min)) = between L min max := by
    ext u
    rw [Language.mem_mul]
    constructor
    · rintro ⟨v, hv, w, ⟨k, -, hk, hw⟩, rfl⟩
      refine ⟨min + k, Nat.le_add_right _ _, fun n hn => ?_, ?_⟩
      · have hle := hk (n - min) (Option.mem_map.2 ⟨n, hn, rfl⟩)
        have hbound := hmax n hn
        omega
      · rw [pow_add, Language.mem_mul]
        exact ⟨v, hv, w, hw, rfl⟩
    · rintro ⟨k, hk, hbound, hu⟩
      obtain ⟨j, rfl⟩ := Nat.exists_eq_add_of_le hk
      rw [pow_add, Language.mem_mul] at hu
      obtain ⟨v, hv, w, hw, rfl⟩ := hu
      refine ⟨v, hv, w, ⟨j, Nat.zero_le j, fun n hn => ?_, hw⟩, rfl⟩
      obtain ⟨n', hn', rfl⟩ := Option.mem_map.1 hn
      have hle := hbound n' hn'
      omega
  rwa [hlanguage] at hseq

end Regex

end Slp
