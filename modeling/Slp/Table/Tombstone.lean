import Slp.Table.Probing

/-!
# Open addressing with deletion

A cell of the table is free, dead (emptied by a deletion) or live.  A lookup walks from the home of
a key over dead and live cells and stops at the first free one (`search`); an insertion takes the
first dead cell of that walk, or the free cell that ends it (`vacancy`).

`Linked` is the invariant that makes lookups complete: no cell between the home of a live cell and
the cell is free.  Replacing a cell by one that is not free keeps it (`Linked.set`), which covers
updates, insertions and deletions alike.
-/

namespace Slp

namespace Table

/-- The state of a cell. -/
inductive Mark where
  | free | dead | live
  deriving DecidableEq, Repr

/-- Where an insertion goes. -/
inductive Vacancy where
  /-- The key is there already. -/
  | present (i : ℕ)
  | vacant (i : ℕ)
  /-- Every cell is live. -/
  | full
  deriving DecidableEq, Repr

variable {α : Type*} (mark : α → Mark) (hit : α → Bool) (t : List α)

/-- The walk of a lookup from the cell `i`, over at most `fuel` cells. -/
def search : (fuel i : ℕ) → Option ℕ
  | 0, _ => none
  | fuel + 1, i =>
    match t[i]? with
    | none => none
    | some x =>
      match mark x with
      | .free => none
      | .dead => search fuel ((i + 1) % t.length)
      | .live => if hit x then some i else search fuel ((i + 1) % t.length)

/-- The walk of an insertion, with the first dead cell seen so far. -/
def vacancy : (fuel i : ℕ) → (dead : Option ℕ) → Vacancy
  | 0, _, dead =>
    match dead with
    | some j => .vacant j
    | none => .full
  | fuel + 1, i, dead =>
    match t[i]? with
    | none => .full
    | some x =>
      match mark x with
      | .free => .vacant (dead.getD i)
      | .dead => vacancy fuel ((i + 1) % t.length) (dead.or (some i))
      | .live => if hit x then .present i else vacancy fuel ((i + 1) % t.length) dead

/-- The live cells. -/
def live : List α := t.filter fun x => mark x = .live

/-- None of the first `d` cells of the walk from `i` is free. -/
def Clear (i d : ℕ) : Prop :=
  ∀ k < d, ∀ x, t[(i + k) % t.length]? = some x → mark x ≠ .free

/-- No cell between the home of a live cell and the cell itself is free. -/
def Linked (home : α → ℕ) : Prop :=
  ∀ (p : ℕ) (x : α), t[p]? = some x → mark x = .live →
    ∃ d < t.length, p = (home x + d) % t.length ∧ Clear mark t (home x) d

variable {mark hit t} {home : α → ℕ} {x y : α} {d fuel i p : ℕ}

theorem mem_live : x ∈ live mark t ↔ ∃ p : ℕ, t[p]? = some x ∧ mark x = .live := by
  rw [live, List.mem_filter, List.mem_iff_getElem?]
  simp only [decide_eq_true_eq, exists_and_right]

theorem Clear.succ (h : Clear mark t i (d + 1)) : Clear mark t ((i + 1) % t.length) d := by
  intro k hk x hx
  rw [walk_succ] at hx
  exact h (k + 1) (by omega) x hx

/-- One more cell in front of a clear walk. -/
theorem Clear.cons (h : Clear mark t ((i + 1) % t.length) d) (hi : i < t.length)
    (hx : t[i]? = some x) (hfree : mark x ≠ .free) : Clear mark t i (d + 1) := by
  intro k hk y hy
  cases k with
  | zero =>
    rw [Nat.add_zero, Nat.mod_eq_of_lt hi, hx] at hy
    rw [← Option.some.inj hy]
    exact hfree
  | succ k =>
    rw [← walk_succ] at hy
    exact h k (by omega) y hy

/-! ### Lookups -/

/-- What a lookup finds is a live cell that satisfies the predicate. -/
theorem search_some (h : search mark hit t fuel i = some p) :
    ∃ x, t[p]? = some x ∧ mark x = .live ∧ hit x := by
  induction fuel generalizing i with
  | zero => cases h
  | succ fuel ih =>
    rw [search] at h
    split at h
    · cases h
    · rename_i x hx
      split at h
      · cases h
      · exact ih h
      · rename_i hlive
        split at h
        · rename_i hhit
          obtain rfl := Option.some.inj h
          exact ⟨x, hx, hlive, hhit⟩
        · exact ih h

/-- A lookup that passes a live cell which satisfies the predicate finds one. -/
theorem exists_search (hi : i < t.length) (hd : d < fuel) (hx : t[(i + d) % t.length]? = some x)
    (hlive : mark x = .live) (hhit : hit x) (hclear : Clear mark t i d) :
    ∃ p, search mark hit t fuel i = some p := by
  induction fuel generalizing i d with
  | zero => omega
  | succ fuel ih =>
    rw [search]
    cases d with
    | zero =>
      rw [Nat.add_zero, Nat.mod_eq_of_lt hi] at hx
      rw [hx]
      dsimp only
      rw [hlive]
      dsimp only
      rw [if_pos hhit]
      exact ⟨i, rfl⟩
    | succ d =>
      have hnext : (i + 1) % t.length < t.length := Nat.mod_lt _ (by omega)
      obtain ⟨p, hp⟩ := ih (d := d) hnext (by omega) (by rwa [walk_succ]) hclear.succ
      have hfirst := hclear 0 (by omega) t[i]
        (by rw [Nat.add_zero, Nat.mod_eq_of_lt hi]; exact List.getElem?_eq_getElem hi)
      rw [List.getElem?_eq_getElem hi]
      dsimp only
      split
      · rename_i hfree
        exact absurd hfree hfirst
      · exact ⟨p, hp⟩
      · split
        · exact ⟨i, rfl⟩
        · exact ⟨p, hp⟩

/-- In a linked table a lookup from the home of a live cell finds it, if no other one satisfies the
predicate. -/
theorem search_eq (h : Linked mark t home) (hp : t[p]? = some x) (hlive : mark x = .live)
    (hhome : home x < t.length) (hhit : hit x)
    (huniq : ∀ (q : ℕ) (y : α), t[q]? = some y → mark y = .live → hit y → q = p) :
    search mark hit t t.length (home x) = some p := by
  obtain ⟨d, hd, rfl, hclear⟩ := h p x hp hlive
  obtain ⟨q, hq⟩ := exists_search hhome hd hp hlive hhit hclear
  obtain ⟨y, hy, hylive, hyhit⟩ := search_some hq
  rw [hq, huniq q y hy hylive hyhit]

/-- A lookup of something that is not in the table. -/
theorem search_eq_none (h : ∀ (q : ℕ) (y : α), t[q]? = some y → mark y = .live → ¬hit y) :
    search mark hit t fuel i = none := by
  cases hs : search mark hit t fuel i with
  | none => rfl
  | some p =>
    obtain ⟨y, hy, hlive, hhit⟩ := search_some hs
    exact absurd hhit (h p y hy hlive)

/-! ### Insertions -/

/-- An insertion finds the key where a lookup does. -/
theorem vacancy_present {dead : Option ℕ} :
    vacancy mark hit t fuel i dead = .present p ↔ search mark hit t fuel i = some p := by
  induction fuel generalizing i dead with
  | zero =>
    cases dead <;> simp [vacancy, search]
  | succ fuel ih =>
    rw [vacancy, search]
    split
    · simp
    · split
      · simp
      · exact ih
      · split
        · simp
        · exact ih

/-- The cell of an insertion is not live, and the walk up to it is clear. -/
theorem vacancy_vacant {dead : Option ℕ} (hi : i < t.length)
    (h : vacancy mark hit t fuel i dead = .vacant p) :
    dead = some p ∨ (dead = none ∧
      ∃ d < fuel, p = (i + d) % t.length ∧ Clear mark t i d ∧
        ∃ x, t[p]? = some x ∧ mark x ≠ .live) := by
  induction fuel generalizing i dead with
  | zero =>
    cases dead with
    | none => cases h
    | some j =>
      rw [vacancy] at h
      cases h
      exact .inl rfl
  | succ fuel ih =>
    have hnext : (i + 1) % t.length < t.length := Nat.mod_lt _ (by omega)
    have hx := List.getElem?_eq_getElem hi
    have hself : i = (i + 0) % t.length := by rw [Nat.add_zero, Nat.mod_eq_of_lt hi]
    rw [vacancy, hx] at h
    dsimp only at h
    split at h
    · rename_i hfree
      cases dead with
      | some j =>
        cases h
        exact .inl rfl
      | none =>
        cases h
        exact .inr ⟨rfl, 0, by omega, hself, fun k hk => by omega, _, hx, by rw [hfree]; decide⟩
    · rename_i hdead
      rcases ih hnext h with hor | ⟨hor, -⟩
      · cases dead with
        | some j => exact .inl hor
        | none =>
          cases hor
          exact .inr ⟨rfl, 0, by omega, hself, fun k hk => by omega, _, hx, by rw [hdead]; decide⟩
      · cases dead <;> cases hor
    · rename_i hlive
      split at h
      · cases h
      · rcases ih hnext h with hor | ⟨hor, d, hd, hp, hclear, hcell⟩
        · exact .inl hor
        · exact .inr ⟨hor, d + 1, by omega, by rw [hp, walk_succ],
            hclear.cons hi hx (by rw [hlive]; decide), hcell⟩

/-- An insertion that has seen a dead cell finds a place. -/
theorem vacancy_ne_full {j : ℕ} (hi : i < t.length) :
    vacancy mark hit t fuel i (some j) ≠ .full := by
  induction fuel generalizing i j with
  | zero => simp [vacancy]
  | succ fuel ih =>
    have hnext : (i + 1) % t.length < t.length := Nat.mod_lt _ (by omega)
    rw [vacancy, List.getElem?_eq_getElem hi]
    dsimp only
    split
    · simp
    · exact ih hnext
    · split
      · simp
      · exact ih hnext

/-- An insertion finds no cell only in a table whose cells are all live. -/
theorem vacancy_full (hi : i < t.length) (h : vacancy mark hit t fuel i none = .full) :
    ∀ k < fuel, ∀ x, t[(i + k) % t.length]? = some x → mark x = .live := by
  induction fuel generalizing i with
  | zero => intro k hk; omega
  | succ fuel ih =>
    have hnext : (i + 1) % t.length < t.length := Nat.mod_lt _ (by omega)
    have hx := List.getElem?_eq_getElem hi
    rw [vacancy, hx] at h
    dsimp only at h
    split at h
    · cases h
    · -- a dead cell would have been taken
      exact absurd h (vacancy_ne_full hnext)
    · rename_i hlive
      split at h
      · cases h
      · intro k hk x hk'
        cases k with
        | zero =>
          rw [Nat.add_zero, Nat.mod_eq_of_lt hi, hx] at hk'
          rw [← Option.some.inj hk']
          exact hlive
        | succ k =>
          rw [← walk_succ] at hk'
          exact ih hnext h k (by omega) x hk'

/-! ### Changes of a cell -/

theorem Clear.set (h : Clear mark t i d) (hy : mark y ≠ .free) :
    Clear mark (t.set p y) i d := by
  intro k hk x hx
  rw [List.length_set, List.getElem?_set] at hx
  split at hx
  · split at hx
    · rw [← Option.some.inj hx]
      exact hy
    · cases hx
  · exact h k hk x hx

/-- A cell is replaced by one that is not free, and that can be found if it is live. -/
theorem Linked.set (h : Linked mark t home) (hfree : mark y ≠ .free)
    (hy : mark y = .live → ∃ d < t.length, p = (home y + d) % t.length ∧ Clear mark t (home y) d) :
    Linked mark (t.set p y) home := by
  intro q x hx hlive
  rw [List.length_set]
  rw [List.getElem?_set] at hx
  split at hx
  · rename_i hpq
    split at hx
    · obtain rfl := Option.some.inj hx
      obtain ⟨d, hd, hp, hclear⟩ := hy hlive
      exact ⟨d, hd, hpq ▸ hp, hclear.set hfree⟩
    · cases hx
  · obtain ⟨d, hd, hq, hclear⟩ := h q x hx hlive
    exact ⟨d, hd, hq, hclear.set hfree⟩

theorem Linked.congr {home' : α → ℕ} (h : Linked mark t home)
    (heq : ∀ x ∈ live mark t, home' x = home x) : Linked mark t home' := by
  intro p x hx hlive
  rw [heq x (mem_live.2 ⟨p, hx, hlive⟩)]
  exact h p x hx hlive

/-- The live cells after a cell that was not live becomes live. -/
theorem live_set_perm (hx : t[p]? = some x) (hdead : mark x ≠ .live) (hy : mark y = .live) :
    (live mark (t.set p y)).Perm (y :: live mark t) := by
  induction t generalizing p with
  | nil => cases hx
  | cons z t ih =>
    cases p with
    | zero =>
      obtain rfl := Option.some.inj hx
      simp [live, hdead, hy]
    | succ p =>
      have hrest := ih (List.getElem?_cons_succ.symm.trans hx)
      by_cases hz : mark z = .live
      · simp only [live, List.set_cons_succ, List.filter_cons, hz, decide_true, if_true] at hrest ⊢
        exact (hrest.cons z).trans (List.Perm.swap y z _)
      · simpa only [live, List.set_cons_succ, List.filter_cons, hz, decide_false,
          Bool.false_eq_true, if_false] using hrest

/-- The live cells after a live cell dies. -/
theorem live_set_dead (hx : t[p]? = some x) (hlive : mark x = .live) (hy : mark y ≠ .live) :
    (live mark t).Perm (x :: live mark (t.set p y)) := by
  have hp : p < t.length := (List.getElem?_eq_some_iff.1 hx).1
  have h := live_set_perm (t := t.set p y) (p := p) (x := y) (y := x)
    (List.getElem?_set_self hp) hy hlive
  have hback : (t.set p y).set p x = t := by
    rw [List.set_set]
    obtain ⟨hlt, rfl⟩ := List.getElem?_eq_some_iff.1 hx
    exact List.set_getElem_self hlt
  rwa [hback] at h

/-- The live cells after a live cell is replaced by another one. -/
theorem exists_live_set (hx : t[p]? = some x) (hlive : mark x = .live) (hy : mark y = .live) :
    ∃ rest, (live mark t).Perm (x :: rest) ∧ (live mark (t.set p y)).Perm (y :: rest) := by
  induction t generalizing p with
  | nil => cases hx
  | cons z t ih =>
    cases p with
    | zero =>
      obtain rfl := Option.some.inj hx
      exact ⟨live mark t, by simp [live, hlive], by simp [live, hy]⟩
    | succ p =>
      obtain ⟨rest, hold, hnew⟩ := ih (List.getElem?_cons_succ.symm.trans hx)
      by_cases hz : mark z = .live
      · refine ⟨z :: rest, ?_, ?_⟩
        · simp only [live, List.filter_cons, hz, decide_true, if_true] at hold ⊢
          exact (hold.cons z).trans (List.Perm.swap x z _)
        · simp only [live, List.set_cons_succ, List.filter_cons, hz, decide_true, if_true] at hnew ⊢
          exact (hnew.cons z).trans (List.Perm.swap y z _)
      · refine ⟨rest, ?_, ?_⟩
        · simpa only [live, List.filter_cons, hz, decide_false, Bool.false_eq_true, if_false]
            using hold
        · simpa only [live, List.set_cons_succ, List.filter_cons, hz, decide_false,
            Bool.false_eq_true, if_false] using hnew

/-- Live cells that a labelling tells apart are at one position if their labels agree. -/
theorem live_unique {β : Type*} {f : α → β} {q : ℕ} (hn : ((live mark t).map f).Nodup)
    (hx : t[p]? = some x) (hxlive : mark x = .live) (hy : t[q]? = some y) (hylive : mark y = .live)
    (hf : f x = f y) : p = q := by
  rw [List.Nodup, List.pairwise_map, live, List.pairwise_filter, List.pairwise_iff_getElem] at hn
  obtain ⟨hp, rfl⟩ := List.getElem?_eq_some_iff.1 hx
  obtain ⟨hq, rfl⟩ := List.getElem?_eq_some_iff.1 hy
  rcases Nat.lt_trichotomy p q with hlt | heq | hgt
  · exact absurd hf (hn p q hp hq hlt (by simpa using hxlive) (by simpa using hylive))
  · exact heq
  · exact absurd hf.symm (hn q p hq hp hgt (by simpa using hylive) (by simpa using hxlive))

/-- A table with fewer live cells than cells has a cell that is not live. -/
theorem exists_not_live (h : (live mark t).length < t.length) :
    ∃ (p : ℕ) (x : α), t[p]? = some x ∧ mark x ≠ .live := by
  by_contra hno
  have hall : ∀ x ∈ t, mark x = .live := fun x hx => by
    obtain ⟨p, hp⟩ := List.mem_iff_getElem?.1 hx
    by_contra hx
    exact hno ⟨p, x, hp, hx⟩
  have heq : live mark t = t := List.filter_eq_self.2 fun x hx => by simp [hall x hx]
  rw [heq] at h
  omega

end Table

end Slp
