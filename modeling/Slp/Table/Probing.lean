import Mathlib.Data.List.Basic
import Mathlib.Data.List.Count
import Mathlib.Data.Nat.ModEq
import Mathlib.Tactic.Linarith

/-!
# Open addressing with linear probing

A table is a list of cells; a cell is empty or holds an entry.  An entry `x` has a home cell
`home x`, and it is put into the first empty cell at or after its home, wrapping around at the end
of the table.  Looking an entry up walks from its home and stops at the first empty cell.

`Chained home t` is the invariant that makes lookups complete: from the home of every entry to the
cell that holds it no cell is empty.  Placing an entry keeps it (`Chained.place`), and under it a
lookup finds every entry of the table (`Chained.find_eq`).  A table with fewer entries than cells
has a free cell on every walk (`exists_firstFree`).
-/

namespace Slp

namespace Table

variable {β : Type*}

/-- Walk from cell `i` to the first empty cell, over at most `fuel` cells. -/
def firstFree (t : List (Option β)) : (fuel i : ℕ) → Option ℕ
  | 0, _ => none
  | fuel + 1, i =>
    match t[i]? with
    | some none => some i
    | _ => firstFree t fuel ((i + 1) % t.length)

/-- Walk from cell `i` to the first entry satisfying `p`, over at most `fuel` cells; an empty cell
ends the walk. -/
def find (t : List (Option β)) (p : β → Bool) : (fuel i : ℕ) → Option β
  | 0, _ => none
  | fuel + 1, i =>
    match t[i]? with
    | some (some x) => if p x then some x else find t p fuel ((i + 1) % t.length)
    | _ => none

/-- The entries of a table, in cell order. -/
def entries (t : List (Option β)) : List β := t.filterMap id

/-- The `k`-th cell of the walk from `i` is occupied. -/
def Occupied (t : List (Option β)) (i k : ℕ) : Prop := ∃ y, t[(i + k) % t.length]? = some (some y)

/-- No cell from the home of an entry to the entry itself is empty. -/
def Chained (home : β → ℕ) (t : List (Option β)) : Prop :=
  ∀ x ∈ entries t, ∃ d < t.length, t[(home x + d) % t.length]? = some (some x) ∧
    ∀ k < d, Occupied t (home x) k

theorem mem_entries {t : List (Option β)} {x : β} :
    x ∈ entries t ↔ ∃ i : ℕ, t[i]? = some (some x) := by
  rw [entries, List.mem_filterMap]
  constructor
  · rintro ⟨a, ha, rfl⟩; exact List.mem_iff_getElem?.1 ha
  · intro h; exact ⟨some x, List.mem_iff_getElem?.2 h, rfl⟩

@[simp] theorem entries_replicate_none (n : ℕ) :
    entries (List.replicate n (none : Option β)) = [] := by
  simp [entries]

theorem chained_replicate_none (home : β → ℕ) (n : ℕ) :
    Chained home (List.replicate n (none : Option β)) := by
  intro x hx; simp at hx

/-- A table with fewer entries than cells has an empty cell. -/
theorem exists_none_of_lt {t : List (Option β)} (h : (entries t).length < t.length) :
    ∃ i < t.length, t[i]? = some none := by
  induction t with
  | nil => simp at h
  | cons c t ih =>
    cases c with
    | none => exact ⟨0, by simp, by simp⟩
    | some x =>
      have hlt : (entries t).length < t.length := by
        have : entries (some x :: t) = x :: entries t := rfl
        rw [this] at h; simpa using h
      obtain ⟨i, hi, ht⟩ := ih hlt
      exact ⟨i + 1, by simpa using hi, by simpa using ht⟩

theorem set_getElem?_self {t : List (Option β)} {j : ℕ} {c : Option β} (h : j < t.length) :
    (t.set j c)[j]? = some c := by
  simp [h]

/-- Filling an empty cell adds one entry. -/
theorem entries_set_perm {t : List (Option β)} {j : ℕ} {x : β} (h : t[j]? = some none) :
    (entries (t.set j (some x))).Perm (x :: entries t) := by
  induction t generalizing j with
  | nil => simp at h
  | cons c t ih =>
    cases j with
    | zero =>
      simp only [List.getElem?_cons_zero, Option.some.injEq] at h
      subst h
      exact List.Perm.refl _
    | succ j =>
      simp only [List.getElem?_cons_succ] at h
      cases c with
      | none => exact ih h
      | some y => exact ((ih h).cons y).trans (List.Perm.swap x y _)

/-! ### Walks -/

theorem walk_succ (i k n : ℕ) : ((i + 1) % n + k) % n = (i + (k + 1)) % n := by
  rw [Nat.mod_add_mod, Nat.add_assoc, Nat.add_comm 1 k]

/-- The walk from `i` finds the empty cell at distance `d` when no earlier cell is empty. -/
theorem firstFree_eq_of_occupied {t : List (Option β)} {fuel d i : ℕ} (hi : i < t.length)
    (hd : d < fuel) (hfree : t[(i + d) % t.length]? = some none)
    (hocc : ∀ k < d, Occupied t i k) : firstFree t fuel i = some ((i + d) % t.length) := by
  induction fuel generalizing d i with
  | zero => omega
  | succ fuel ih =>
    cases d with
    | zero =>
      rw [Nat.add_zero, Nat.mod_eq_of_lt hi] at hfree
      simp [firstFree, hfree, Nat.mod_eq_of_lt hi]
    | succ d =>
      obtain ⟨y, hy⟩ := hocc 0 (by omega)
      rw [Nat.add_zero, Nat.mod_eq_of_lt hi] at hy
      have hpos : 0 < t.length := by omega
      simp only [firstFree, hy]
      rw [ih (d := d) (Nat.mod_lt _ hpos) (by omega) (by rw [walk_succ]; exact hfree)
        (fun k hk => by simpa only [Occupied, walk_succ] using hocc (k + 1) (by omega)), walk_succ]

/-- From any cell, a table with an empty cell has a nearest empty cell. -/
theorem exists_nearest_free {t : List (Option β)} {i : ℕ} (hi : i < t.length)
    (h : ∃ j < t.length, t[j]? = some none) :
    ∃ d < t.length, t[(i + d) % t.length]? = some none ∧ ∀ k < d, Occupied t i k := by
  classical
  obtain ⟨j, hj, hfree⟩ := h
  have hex : ∃ d, t[(i + d) % t.length]? = some none := by
    refine ⟨j + t.length - i, ?_⟩
    have : i + (j + t.length - i) = j + t.length := by omega
    rw [this, Nat.add_mod_right, Nat.mod_eq_of_lt hj]
    exact hfree
  have hlt : Nat.find hex < t.length := by
    by_contra hge
    have hmin := Nat.find_min hex (m := Nat.find hex - t.length) (by omega)
    have hspec := Nat.find_spec hex
    have hsplit : i + Nat.find hex = i + (Nat.find hex - t.length) + t.length := by omega
    rw [hsplit, Nat.add_mod_right] at hspec
    exact hmin hspec
  refine ⟨Nat.find hex, hlt, Nat.find_spec hex, fun k hk => ?_⟩
  have hk' := Nat.find_min hex hk
  have hkl : (i + k) % t.length < t.length := Nat.mod_lt _ (by omega)
  rw [List.getElem?_eq_getElem hkl] at hk'
  cases hc : t[(i + k) % t.length] with
  | none => exact absurd (congrArg some hc) hk'
  | some y => exact ⟨y, by rw [List.getElem?_eq_getElem hkl, hc]⟩

/-- A walk over the whole of a table with fewer entries than cells ends at an empty cell. -/
theorem exists_firstFree {t : List (Option β)} {i : ℕ} (hi : i < t.length)
    (h : (entries t).length < t.length) :
    ∃ d < t.length, firstFree t t.length i = some ((i + d) % t.length) ∧
      t[(i + d) % t.length]? = some none ∧ ∀ k < d, Occupied t i k := by
  obtain ⟨d, hd, hfree, hocc⟩ := exists_nearest_free hi (exists_none_of_lt h)
  exact ⟨d, hd, firstFree_eq_of_occupied hi hd hfree hocc, hfree, hocc⟩

theorem find_eq_of_occupied {t : List (Option β)} {p : β → Bool} {x : β} {fuel d i : ℕ}
    (hi : i < t.length) (hd : d < fuel) (hx : t[(i + d) % t.length]? = some (some x))
    (hp : p x = true) (hocc : ∀ k < d, Occupied t i k)
    (huniq : ∀ y ∈ entries t, p y = true → y = x) : find t p fuel i = some x := by
  induction fuel generalizing d i with
  | zero => omega
  | succ fuel ih =>
    cases d with
    | zero =>
      rw [Nat.add_zero, Nat.mod_eq_of_lt hi] at hx
      simp [find, hx, hp]
    | succ d =>
      obtain ⟨y, hy⟩ := hocc 0 (by omega)
      rw [Nat.add_zero, Nat.mod_eq_of_lt hi] at hy
      simp only [find, hy]
      by_cases hpy : p y = true
      · rw [if_pos hpy, huniq y (mem_entries.2 ⟨_, hy⟩) hpy]
      · simp only [hpy, Bool.false_eq_true, ↓reduceIte]
        exact ih (d := d) (Nat.mod_lt _ (by omega)) (by omega) (by rw [walk_succ]; exact hx)
          (fun k hk => by simpa only [Occupied, walk_succ] using hocc (k + 1) (by omega))

/-- What a walk finds is an entry of the table that satisfies the predicate. -/
theorem find_some {t : List (Option β)} {p : β → Bool} {x : β} {fuel i : ℕ}
    (h : find t p fuel i = some x) : x ∈ entries t ∧ p x = true := by
  induction fuel generalizing i with
  | zero => simp [find] at h
  | succ fuel ih =>
    simp only [find] at h
    split at h
    · rename_i y hy
      split_ifs at h with hpy
      · obtain rfl : y = x := by simpa using h
        exact ⟨mem_entries.2 ⟨_, hy⟩, hpy⟩
      · exact ih h
    · simp at h

namespace Chained

variable {home : β → ℕ} {t : List (Option β)}

/-- Putting an entry into the first empty cell after its home keeps the chains unbroken. -/
theorem place {x : β} {d : ℕ} (h : Chained home t) (hd : d < t.length)
    (hfree : t[(home x + d) % t.length]? = some none) (hocc : ∀ k < d, Occupied t (home x) k) :
    Chained home (t.set ((home x + d) % t.length) (some x)) := by
  have hlt : (home x + d) % t.length < t.length := Nat.mod_lt _ (by omega)
  have keep : ∀ i k, Occupied t i k →
      Occupied (t.set ((home x + d) % t.length) (some x)) i k := by
    rintro i k ⟨y, hy⟩
    simp only [Occupied, List.length_set]
    by_cases heq : (home x + d) % t.length = (i + k) % t.length
    · exact ⟨x, by rw [← heq]; exact set_getElem?_self hlt⟩
    · exact ⟨y, by rw [List.getElem?_set_ne heq]; exact hy⟩
  intro y hy
  rw [(entries_set_perm hfree).mem_iff] at hy
  simp only [List.length_set]
  rcases List.mem_cons.1 hy with rfl | hy
  · exact ⟨d, hd, set_getElem?_self hlt, fun k hk => keep _ k (hocc k hk)⟩
  · obtain ⟨e, he, hye, hyocc⟩ := h y hy
    refine ⟨e, he, ?_, fun k hk => keep _ k (hyocc k hk)⟩
    have hne : (home x + d) % t.length ≠ (home y + e) % t.length := by
      intro heq
      rw [heq, hye] at hfree
      simp at hfree
    rw [List.getElem?_set_ne hne]
    exact hye

/-- A lookup from the home of an entry finds it, when no other entry satisfies the predicate. -/
theorem find_eq {x : β} {p : β → Bool} (h : Chained home t) (hx : x ∈ entries t)
    (hhome : home x < t.length) (hp : p x = true) (huniq : ∀ y ∈ entries t, p y = true → y = x) :
    find t p t.length (home x) = some x := by
  obtain ⟨d, hd, hxd, hocc⟩ := h x hx
  exact find_eq_of_occupied hhome hd hxd hp hocc huniq

/-- Only the homes of the entries matter. -/
theorem congr {home' : β → ℕ} (h : Chained home t) (heq : ∀ x ∈ entries t, home' x = home x) :
    Chained home' t := by
  intro x hx
  rw [show Occupied t (home' x) = Occupied t (home x) by rw [heq x hx], heq x hx]
  exact h x hx

end Chained

/-! ### Placing entries -/

/-- Put `x` into the first empty cell from its home on. -/
def place (home : β → ℕ) (t : List (Option β)) (x : β) : Option (List (Option β)) :=
  (firstFree t t.length (home x)).map fun i => t.set i (some x)

/-- Placing into a chained table with a free cell succeeds and keeps it chained. -/
theorem exists_place {home : β → ℕ} {t : List (Option β)} {x : β} (hx : home x < t.length)
    (h : Chained home t) (hlt : (entries t).length < t.length) :
    ∃ t', place home t x = some t' ∧ t'.length = t.length ∧
      (entries t').Perm (x :: entries t) ∧ Chained home t' := by
  obtain ⟨d, hd, hfree, hcell, hocc⟩ := exists_firstFree hx hlt
  refine ⟨t.set ((home x + d) % t.length) (some x), ?_, List.length_set,
    entries_set_perm hcell, h.place hd hcell hocc⟩
  simp only [place, hfree, Option.map_some]

/-- Placing a list of entries into a chained table with enough free cells succeeds. -/
theorem exists_foldlM_place (home : β → ℕ) (xs : List β) {t : List (Option β)}
    (hhome : ∀ x ∈ xs, home x < t.length) (h : Chained home t)
    (hlt : (entries t).length + xs.length ≤ t.length) :
    ∃ t', xs.foldlM (place home) t = some t' ∧ t'.length = t.length ∧
      (entries t').Perm (xs ++ entries t) ∧ Chained home t' := by
  induction xs generalizing t with
  | nil => exact ⟨t, rfl, rfl, .refl _, h⟩
  | cons x xs ih =>
    rw [List.length_cons] at hlt
    obtain ⟨t₁, hp, hlen, hperm, hch⟩ :=
      exists_place (hhome x List.mem_cons_self) h (by omega)
    have hcount : (entries t₁).length = (entries t).length + 1 := by
      rw [hperm.length_eq, List.length_cons]
    obtain ⟨t₂, hf, hlen₂, hperm₂, hch₂⟩ := ih (t := t₁)
      (fun y hy => hlen ▸ hhome y (List.mem_cons_of_mem _ hy)) hch (by omega)
    refine ⟨t₂, ?_, hlen₂.trans hlen, ?_, hch₂⟩
    · rw [List.foldlM_cons, hp]
      exact hf
    · exact hperm₂.trans ((hperm.append_left xs).trans List.perm_middle)

end Table

end Slp
