import Mathlib.Data.List.Induction
import Mathlib.Order.Compare
import Slp.Object.Assigned
import Slp.Order.Stable
import Slp.Text.CString

/-!
# Sorting

`sort_array_values` and `builtin_sort` are the same insertion sort, in place, for the comparison of a
mode and for that of a closure, which may fail.  The round of an element takes it out of the array,
moves larger ones up one after the other, and puts it back; when a call of the closure fails the sort
returns at once.

* `Comparator`: a total preorder, and the call that fails, if there is one;
* `callsBefore`: the number of calls that come before the round of an element;
* `sortWith_of_succeeds`: without a failure the loop computes `sortElements`;
* `SortLaw`: the array is a permutation of what it was, with the contents it had, and after a sort
  that ends it is ordered, and stable;
* `sortLaw_spec`: **the law holds when the call that fails is the first one of its round, and no view
  with cells is sorted.  When another call fails the array is no permutation.**

A sort that ends writes a view back to its source, and where the source has a cell writes into the
cell, which may be an element of the view too.
-/

namespace Slp

/-! ### Comparators -/

/-- `SlpSortMode`. -/
inductive SortMode where
  | ascii | integer | double
  deriving DecidableEq, Repr

/-- What the modes compare: the text of a value, its integer, and its double, none of which is NaN. -/
structure SortKeys (D : Type) where
  text : Value → Bytes
  integer : Value → ℤ
  double : Value → D

/-- `compare_sort_values`. -/
def compareSortValues {D : Type} [LinearOrder D] (K : SortKeys D) (left right : Value) :
    SortMode → Ordering
  | .ascii => strcmp (K.text left) (K.text right)
  | .integer => compare (K.integer left) (K.integer right)
  | .double => compare (K.double left) (K.double right)

/-- A comparison by a total preorder; the call with the number `failAt` fails. -/
structure Comparator extends TotalPreorder Value where
  failAt : Option ℕ

/-- The rounds of a sort, from the place `position` of an element down, after `calls` calls: what the
array holds, the number of calls, and whether all of them ended. -/
def sortRound (P : Comparator) (current : Value) :
    (position calls : ℕ) → List Value → List Value × ℕ × Bool
  | 0, calls, vs => (vs.set 0 current, calls, true)
  | position + 1, calls, vs =>
    let left := vs.getD position .null
    if P.failAt = some calls then (vs, calls + 1, false)
    else if P.le left current then (vs.set (position + 1) current, calls + 1, true)
    else sortRound P current position (calls + 1) (vs.set (position + 1) left)

/-- The loop of a sort, from its round for the element `i` on. -/
def sortLoop (P : Comparator) : (rounds i calls : ℕ) → List Value → List Value × Bool
  | 0, _, _, vs => (vs, true)
  | rounds + 1, i, calls, vs =>
    match sortRound P (vs.getD i .null) i calls vs with
    | (vs, calls, true) => sortLoop P rounds (i + 1) calls vs
    | (vs, _, false) => (vs, false)

/-- `sort_array_values` and `builtin_sort`, on the array at `r`. -/
def Heap.sortWith (h : Heap) (r : Ref) (P : Comparator) : Heap × Bool :=
  match h.array? r with
  | none => (h, true)
  | some a =>
    let (vs, ended) := sortLoop P (a.count - 1) 1 0 a.live
    let h := h.set r (.array { a with elements := vs ++ a.elements.drop a.count })
    (if ended then h.syncView r else h, ended)

/-! ### The comparators of the modes -/

/-- The comparator of an order on what is compared; its calls do not fail. -/
def Comparator.ofCmp {α : Type} (cmp : α → α → Ordering) [Std.TransCmp cmp] (f : Value → α) :
    Comparator where
  le x y := (cmp (f x) (f y)).isLE
  total x y := by
    have hswap : cmp (f y) (f x) = (cmp (f x) (f y)).swap := Std.OrientedCmp.eq_swap
    rw [hswap]
    cases cmp (f x) (f y) <;> decide
  trans hxy hyz := Std.TransCmp.isLE_trans hxy hyz
  failAt := none

/-- The comparator of a mode. -/
def SortMode.comparator {D : Type} [LinearOrder D] (K : SortKeys D) : SortMode → Comparator
  | .ascii => .ofCmp (List.compareLex compare) fun v => cstring (K.text v)
  | .integer => .ofCmp compare K.integer
  | .double => .ofCmp compare K.double

/-- The comparator of a mode is that of `compare_sort_values`. -/
theorem SortMode.comparator_le {D : Type} [LinearOrder D] (K : SortKeys D) (m : SortMode) (x y : Value) :
    (m.comparator K).le x y = !(compareSortValues K x y m == .gt) := by
  cases m with
  | ascii =>
    rw [compareSortValues, strcmp_eq]
    show (List.compareLex compare (cstring (K.text x)) (cstring (K.text y))).isLE = _
    cases List.compareLex compare (cstring (K.text x)) (cstring (K.text y)) <;> rfl
  | integer =>
    show (compare (K.integer x) (K.integer y)).isLE = !(compare (K.integer x) (K.integer y) == .gt)
    cases compare (K.integer x) (K.integer y) <;> rfl
  | double =>
    show (compare (K.double x) (K.double y)).isLE = !(compare (K.double x) (K.double y) == .gt)
    cases compare (K.double x) (K.double y) <;> rfl

/-! ### The order of the elements -/

section Elements

variable {P : Comparator} {x y hole current : Value} {L R T vs : List Value} {calls k : ℕ}

/-- What `sortElements` takes for greater. -/
def Comparator.greater (P : Comparator) (x y : Value) : Bool := !P.le x y

theorem placeBefore_append {greater : Value → Value → Bool} (hR : ∀ y ∈ R, greater y x = true)
    (hL : ∀ y ∈ L, greater y x = false) : placeBefore greater x (R ++ L) = R ++ x :: L := by
  induction R with
  | nil => cases L with
    | nil => rfl
    | cons y L =>
      rw [List.nil_append, placeBefore, hL y List.mem_cons_self, if_neg Bool.false_ne_true,
        List.nil_append]
  | cons y R ih =>
    rw [List.cons_append, placeBefore, hR y List.mem_cons_self, if_pos rfl,
      ih fun z hz => hR z (List.mem_cons_of_mem _ hz), List.cons_append]

/-- The last element is placed among the others. -/
theorem sortElements_concat (hL : ∀ y ∈ L, P.le y x = true) (hR : ∀ y ∈ R, P.le y x = false)
    (hvs : sortElements P.greater vs = L ++ R) :
    sortElements P.greater (vs ++ [x]) = L ++ x :: R := by
  have hdone : vs.foldl (fun done current => placeBefore P.greater current done) [] =
      R.reverse ++ L.reverse := by
    rw [← List.reverse_append, ← hvs, sortElements, List.reverse_reverse]
  rw [sortElements, List.foldl_append, List.foldl_cons, List.foldl_nil, hdone, placeBefore_append,
    List.reverse_append, List.reverse_cons, List.reverse_reverse, List.reverse_reverse,
    List.append_assoc, List.singleton_append]
  · intro y hy
    rw [Comparator.greater, hR y (List.mem_reverse.1 hy)]
    rfl
  · intro y hy
    rw [Comparator.greater, hL y (List.mem_reverse.1 hy)]
    rfl

/-- What was sorted is a permutation, ordered and stable. -/
theorem sortElements_spec (P : Comparator) (vs : List Value) :
    (sortElements P.greater vs).Perm vs ∧
      (sortElements P.greater vs).Pairwise (fun y z => P.le y z = true) ∧
      P.Stable vs (sortElements P.greater vs) := by
  induction vs using List.reverseRecOn with
  | nil => exact ⟨.refl _, .nil, .refl _⟩
  | append_singleton vs x ih =>
    obtain ⟨hperm, hordered, hstable⟩ := ih
    obtain ⟨L, R, hsplit, hL, hR⟩ := TotalPreorder.exists_split hordered x
    rw [sortElements_concat hL hR hsplit]
    rw [hsplit] at hperm hordered hstable
    refine ⟨?_, TotalPreorder.pairwise_insert hordered hL hR, TotalPreorder.stable_insert hstable hR⟩
    exact List.perm_middle.trans ((hperm.cons x).trans (List.perm_append_singleton x vs).symm)

/-- The number of calls in the round of an element that is put between `L` and `R`. -/
def callsBetween (L R : List Value) : ℕ := R.length + min L.length 1

/-- The step of a round. -/
theorem sortRound_succ (P : Comparator) (current y hole : Value) (A T : List Value) (calls : ℕ) :
    sortRound P current (A.length + 1) calls (A ++ y :: hole :: T) =
      if P.failAt = some calls then (A ++ y :: hole :: T, calls + 1, false)
      else if P.le y current then (A ++ y :: current :: T, calls + 1, true)
      else sortRound P current A.length (calls + 1) (A ++ y :: y :: T) := by
  have hget : (A ++ y :: hole :: T).getD A.length .null = y := by
    rw [List.getD_eq_getElem?_getD, List.getElem?_append_right (Nat.le_refl _), Nat.sub_self]
    rfl
  have hset : ∀ z, (A ++ y :: hole :: T).set (A.length + 1) z = A ++ y :: z :: T := by
    intro z
    rw [List.set_append_right _ _ (Nat.le_add_right _ _), Nat.add_sub_cancel_left]
    rfl
  rw [sortRound, hget, hset, hset]

/-- A round in which no call fails. -/
theorem sortRound_ended (hR : ∀ y ∈ R, P.le y current = false) (hL : ∀ y ∈ L, P.le y current = true)
    (hfail : ∀ k, P.failAt = some k → k < calls ∨ calls + callsBetween L R ≤ k) :
    sortRound P current (L ++ R).length calls (L ++ R ++ hole :: T) =
      (L ++ current :: R ++ T, calls + callsBetween L R, true) := by
  induction R using List.reverseRecOn generalizing calls hole T with
  | nil =>
    rw [List.append_nil]
    cases L using List.reverseRecOn with
    | nil => rfl
    | append_singleton A y =>
      have hno : P.failAt ≠ some calls := by
        intro hcall
        have := hfail calls hcall
        simp [callsBetween] at this
      rw [List.length_append, List.length_singleton, List.append_assoc, List.singleton_append,
        sortRound_succ, if_neg hno, if_pos (hL y (by simp))]
      simp [callsBetween]
  | append_singleton R y ih =>
    have hcalls : callsBetween L (R ++ [y]) = callsBetween L R + 1 := by
      rw [callsBetween, callsBetween, List.length_append, List.length_singleton]
      omega
    have hno : P.failAt ≠ some calls := by
      intro hcall
      have := hfail calls hcall
      omega
    have hy : P.le y current = false := hR y (by simp)
    rw [← List.append_assoc, List.length_append, List.length_singleton, List.append_assoc (L ++ R),
      List.singleton_append, sortRound_succ, if_neg hno, hy, if_neg Bool.false_ne_true,
      ih (fun z hz => hR z (by simp [hz])) (fun k hk => by have := hfail k hk; omega), hcalls]
    have hlist : L ++ current :: R ++ y :: T = L ++ current :: (R ++ [y]) ++ T := by simp
    rw [hlist, Nat.add_assoc, Nat.add_comm 1]

/-- A round in which the call `k` fails: before the first move nothing has changed, and after it the
element that moved last is there twice, and `current` is lost. -/
theorem sortRound_failed (hR : ∀ y ∈ R, P.le y current = false)
    (hfail : P.failAt = some (calls + k)) (hk : k < callsBetween L R) :
    ∃ vs n, sortRound P current (L ++ R).length calls (L ++ R ++ hole :: T) = (vs, n, false) ∧
      (k = 0 → vs = L ++ R ++ hole :: T) ∧ (0 < k → ∃ y ∈ R, vs.Perm (y :: (L ++ R ++ T))) := by
  induction R using List.reverseRecOn generalizing calls hole T k with
  | nil =>
    rw [List.append_nil]
    cases L using List.reverseRecOn with
    | nil => exact absurd hk (Nat.not_lt_zero k)
    | append_singleton A y =>
      obtain rfl : k = 0 := by
        rw [callsBetween, List.length_nil] at hk
        omega
      refine ⟨A ++ [y] ++ hole :: T, calls + 1, ?_, fun _ => rfl, fun hpos => absurd hpos (Nat.lt_irrefl 0)⟩
      rw [List.length_append, List.length_singleton, List.append_assoc, List.singleton_append,
        sortRound_succ, if_pos (by rw [hfail, Nat.add_zero])]
  | append_singleton R y ih =>
    have hcalls : callsBetween L (R ++ [y]) = callsBetween L R + 1 := by
      rw [callsBetween, callsBetween, List.length_append, List.length_singleton]
      omega
    have hy : P.le y current = false := hR y (by simp)
    rw [← List.append_assoc, List.length_append, List.length_singleton, List.append_assoc (L ++ R),
      List.singleton_append, sortRound_succ]
    cases k with
    | zero =>
      rw [if_pos (by rw [hfail, Nat.add_zero])]
      exact ⟨_, _, rfl, fun _ => rfl, fun hpos => absurd hpos (Nat.lt_irrefl 0)⟩
    | succ k =>
      rw [if_neg (by rw [hfail]; simp), hy, if_neg Bool.false_ne_true]
      obtain ⟨vs, n, hround, hzero, hpos⟩ := @ih y (y :: T) (calls + 1) k
        (fun z hz => hR z (by simp [hz])) (by rw [hfail]; congr 1; omega) (by omega)
      refine ⟨vs, n, hround, fun h => absurd h (Nat.succ_ne_zero k), fun _ => ?_⟩
      cases k with
      | zero =>
        -- `y` has just moved
        refine ⟨y, by simp, ?_⟩
        rw [hzero rfl]
        have hperm : (L ++ R ++ y :: y :: T).Perm (y :: (L ++ R ++ y :: T)) := List.perm_middle
        simpa using hperm
      | succ k =>
        obtain ⟨z, hz, hperm⟩ := hpos (Nat.succ_pos k)
        exact ⟨z, by simp [hz], by simpa using hperm⟩

/-! ### The loop -/

/-- The number of calls in the round of the element `i`. -/
def callsIn (P : Comparator) (vs : List Value) (i : ℕ) : ℕ :=
  (vs.take i).countP (P.greater · (vs.getD i .null)) +
    min ((vs.take i).countP (P.le · (vs.getD i .null))) 1

/-- The number of calls before the round of the element `i`. -/
def callsBefore (P : Comparator) (vs : List Value) (i : ℕ) : ℕ :=
  ((List.range i).map (callsIn P vs)).sum

/-- No call of the sort fails. -/
def Comparator.Succeeds (P : Comparator) (vs : List Value) : Prop :=
  ∀ k, P.failAt = some k → callsBefore P vs vs.length ≤ k

/-- The call of the sort that fails is the first one of its round. -/
def Comparator.FailsFirst (P : Comparator) (vs : List Value) : Prop :=
  ∀ k, P.failAt = some k → k < callsBefore P vs vs.length → ∃ i, k = callsBefore P vs i

theorem callsBefore_succ (P : Comparator) (vs : List Value) (i : ℕ) :
    callsBefore P vs (i + 1) = callsBefore P vs i + callsIn P vs i := by
  rw [callsBefore, List.range_succ, List.map_append, List.sum_append]
  simp [callsBefore]

theorem callsBefore_mono {i j : ℕ} (hij : i ≤ j) : callsBefore P vs i ≤ callsBefore P vs j := by
  induction hij with
  | refl => exact Nat.le_refl _
  | step _ ih =>
    rw [callsBefore_succ]
    omega

/-- The elements before the element `i` and the places it goes between. -/
theorem callsIn_eq {i : ℕ} (hperm : (L ++ R).Perm (vs.take i))
    (hL : ∀ y ∈ L, P.le y (vs.getD i .null) = true)
    (hR : ∀ y ∈ R, P.le y (vs.getD i .null) = false) : callsIn P vs i = callsBetween L R := by
  have hgreater : (vs.take i).countP (P.greater · (vs.getD i .null)) = R.length := by
    rw [← hperm.countP_eq, List.countP_append, List.countP_eq_zero.2, List.countP_eq_length.2,
      Nat.zero_add]
    · intro y hy
      rw [Comparator.greater, hR y hy]
      rfl
    · intro y hy
      rw [Comparator.greater, hL y hy]
      exact Bool.false_ne_true
  have hle : (vs.take i).countP (P.le · (vs.getD i .null)) = L.length := by
    rw [← hperm.countP_eq, List.countP_append, List.countP_eq_length.2 hL, List.countP_eq_zero.2,
      Nat.add_zero]
    intro y hy
    rw [hR y hy]
    exact Bool.false_ne_true
  rw [callsIn, hgreater, hle, callsBetween]

/-- A list with another first element is no permutation. -/
theorem not_perm_cons (hxy : y ≠ x) (l : List Value) : ¬(y :: l).Perm (x :: l) := by
  intro hperm
  have hcount := hperm.count_eq x
  rw [List.count_cons_self, List.count_cons_of_ne hxy] at hcount
  omega

/-- The rounds of a sort, from that of the element `i` on. -/
theorem sortLoop_spec {rounds i : ℕ} (hn : i + rounds = vs.length)
    (hfail : ∀ k, P.failAt = some k → callsBefore P vs i ≤ k) :
    ∃ ws ended, sortLoop P rounds i (callsBefore P vs i)
        (sortElements P.greater (vs.take i) ++ vs.drop i) = (ws, ended) ∧
      (ended = true ↔ P.Succeeds vs) ∧ (ended = true → ws = sortElements P.greater vs) ∧
      (ws.Perm vs ↔ P.FailsFirst vs) := by
  induction rounds generalizing i with
  | zero =>
    obtain rfl : i = vs.length := hn
    rw [List.take_length, List.drop_length, List.append_nil]
    refine ⟨_, true, rfl, iff_of_true rfl hfail, fun _ => rfl, iff_of_true ?_ ?_⟩
    · exact (sortElements_spec P vs).1
    · exact fun k hk hlt => absurd (hfail k hk) (Nat.not_le.2 hlt)
  | succ rounds ih =>
    have hi : i < vs.length := by omega
    obtain ⟨hperm, hordered, -⟩ := sortElements_spec P (vs.take i)
    obtain ⟨L, R, hsplit, hL, hR⟩ := TotalPreorder.exists_split hordered (vs.getD i .null)
    rw [hsplit] at hperm
    have hcalls := callsIn_eq hperm hL hR
    have hlen : (L ++ R).length = i := by
      rw [hperm.length_eq, List.length_take_of_le (Nat.le_of_lt hi)]
    have hget : vs.getD i .null = vs[i] := by
      rw [List.getD_eq_getElem?_getD, List.getElem?_eq_getElem hi]
      rfl
    have hdrop : vs.drop i = vs.getD i .null :: vs.drop (i + 1) := by
      rw [hget]
      exact List.drop_eq_getElem_cons hi
    have hall : vs.Perm (vs.getD i .null :: (L ++ R ++ vs.drop (i + 1))) := by
      have hsame := List.take_append_drop i vs
      rw [hdrop] at hsame
      exact ((List.Perm.of_eq hsame.symm).trans (hperm.symm.append_right _)).trans List.perm_middle
    have hcurrent : (L ++ R ++ vs.drop i).getD i .null = vs.getD i .null := by
      rw [hdrop, List.getD_eq_getElem?_getD, List.getElem?_append_right (Nat.le_of_eq hlen), hlen,
        Nat.sub_self]
      rfl
    rw [hsplit, sortLoop, hcurrent, hdrop]
    by_cases hcall : ∃ k, P.failAt = some (callsBefore P vs i + k) ∧ k < callsIn P vs i
    · obtain ⟨k, hk, hlt⟩ := hcall
      obtain ⟨ws, n, hround, hzero, hpos⟩ := @sortRound_failed P (vs.getD i .null) (vs.getD i .null) L R
        (vs.drop (i + 1)) (callsBefore P vs i) k hR hk (hcalls ▸ hlt)
      rw [hlen] at hround
      rw [hround]
      have hnext := callsBefore_succ P vs i
      have hlast : callsBefore P vs (i + 1) ≤ callsBefore P vs vs.length := callsBefore_mono hi
      refine ⟨ws, false, rfl, iff_of_false Bool.false_ne_true fun hsucceeds => ?_,
        fun h => absurd h Bool.false_ne_true, ?_⟩
      · have := hsucceeds _ hk
        omega
      · cases k with
        | zero =>
          refine iff_of_true ?_ fun m hm _ => ⟨i, ?_⟩
          · rw [hzero rfl]
            exact List.perm_middle.trans hall.symm
          · rw [hk] at hm
            exact (Option.some.inj hm).symm
        | succ k =>
          obtain ⟨y, hy, hws⟩ := hpos (Nat.succ_pos k)
          refine iff_of_false (fun hvs => ?_) fun hfirst => ?_
          · refine not_perm_cons (fun hxy => ?_) _ (hws.symm.trans (hvs.trans hall))
            have hself := hR y hy
            rw [hxy, P.refl] at hself
            cases hself
          · -- the call is inside the round
            obtain ⟨j, hj⟩ := hfirst _ hk (by omega)
            rcases Nat.lt_or_ge i j with hij | hij
            · have hmono : callsBefore P vs (i + 1) ≤ callsBefore P vs j := callsBefore_mono hij
              omega
            · have hmono : callsBefore P vs j ≤ callsBefore P vs i := callsBefore_mono hij
              omega
    · have hno : ∀ k, P.failAt = some k → callsBefore P vs (i + 1) ≤ k := by
        intro k hk
        rw [callsBefore_succ]
        by_contra hlt
        refine hcall ⟨k - callsBefore P vs i, ?_, ?_⟩
        · rw [Nat.add_sub_cancel' (hfail k hk)]
          exact hk
        · have := hfail k hk
          omega
      have hround := @sortRound_ended P (vs.getD i .null) (vs.getD i .null) L R (vs.drop (i + 1))
        (callsBefore P vs i) hR hL (fun k hk => .inr (by
          rw [← hcalls, ← callsBefore_succ]
          exact hno k hk))
      rw [hlen, ← hcalls, ← callsBefore_succ] at hround
      rw [hround]
      dsimp only
      have htake : vs.take (i + 1) = vs.take i ++ [vs.getD i .null] := by
        rw [List.take_add_one, List.getElem?_eq_getElem hi, hget]
        rfl
      have hnext := ih (i := i + 1) (by omega) hno
      rwa [htake, sortElements_concat hL hR hsplit] at hnext

theorem length_sortRound (P : Comparator) (current : Value) (position calls : ℕ) (vs : List Value) :
    (sortRound P current position calls vs).1.length = vs.length := by
  induction position generalizing calls vs with
  | zero => exact List.length_set
  | succ position ih =>
    rw [sortRound]
    split_ifs
    · rfl
    · exact List.length_set
    · rw [ih, List.length_set]

theorem length_sortLoop (P : Comparator) (rounds i calls : ℕ) (vs : List Value) :
    (sortLoop P rounds i calls vs).1.length = vs.length := by
  induction rounds generalizing i calls vs with
  | zero => rfl
  | succ rounds ih =>
    have hround := length_sortRound P (vs.getD i .null) i calls vs
    rw [sortLoop]
    generalize sortRound P (vs.getD i .null) i calls vs = round at hround ⊢
    obtain ⟨ws, calls', ended⟩ := round
    cases ended with
    | true => exact (ih (i + 1) calls' ws).trans hround
    | false => exact hround

/-- The loop of a sort. -/
theorem sortLoop_start (P : Comparator) (vs : List Value) :
    ∃ ws ended, sortLoop P (vs.length - 1) 1 0 vs = (ws, ended) ∧
      (ended = true ↔ P.Succeeds vs) ∧ (ended = true → ws = sortElements P.greater vs) ∧
      (ws.Perm vs ↔ P.FailsFirst vs) := by
  cases vs with
  | nil =>
    refine ⟨[], true, rfl, iff_of_true rfl fun _ _ => Nat.zero_le _, fun _ => rfl,
      iff_of_true (.refl _) fun k _ hlt => absurd hlt (Nat.not_lt_zero k)⟩
  | cons x vs =>
    have hfirst : callsBefore P (x :: vs) 1 = 0 := by
      rw [callsBefore_succ, callsIn, List.take_zero]
      rfl
    have hloop := @sortLoop_spec P (x :: vs) vs.length 1 (Nat.add_comm 1 _)
      (fun k _ => by rw [hfirst]; exact Nat.zero_le k)
    rwa [hfirst] at hloop

end Elements

/-! ### The heap -/

namespace Heap

/-- What a sort owes the array at `r`. -/
structure SortLaw (h h' : Heap) (r : Ref) (P : Comparator) (ended : Bool) : Prop where
  perm : (h'.live r).Perm (h.live r)
  contents : ∀ x ∈ h.live r, h'.read x = h.read x
  ordered : ended = true → (h'.live r).Pairwise fun x y => P.le x y = true
  stable : ended = true → P.Stable (h.live r) (h'.live r)

/-- The write-back of a view assigns no cell that is an element of the view. -/
def WrittenApart (h : Heap) (r : Ref) : Prop :=
  ∀ a s, h.array? r = some a → a.viewSource = some s → ∀ i < a.count, ∀ c,
    h.Assigns s (a.viewOffset + i) c → Value.obj c ∉ h.live r

section Sync

variable {h h' : Heap} {r s : Ref} {a : ArrayObj} {P : Comparator}

/-- Assignments to elements of an array, one after the other. -/
theorem foldl_set_spec (ho : Orderly h) (s : Ref) (offset : ℕ) (values : ℕ → Value) (k : ℕ)
    (hh' : h' = (List.range k).foldl
      (fun h i => h.change s (.set ((offset + i : ℕ) : ℤ) (values i))) h) :
    Orderly h' ∧ (∀ p c, offset + k ≤ p → h'.Assigns s p c → h.Assigns s p c) ∧
      (∀ q, s < q → h'.array? q = h.array? q) ∧
      CellsBut h h' fun c => ∃ i < k, h.Assigns s (offset + i) c := by
  induction k generalizing h' with
  | zero =>
    subst hh'
    exact ⟨ho, fun _ _ _ hassigns => hassigns, fun _ _ => rfl, .refl _ _⟩
  | succ k ih =>
    rw [List.range_succ, List.foldl_append, List.foldl_cons, List.foldl_nil] at hh'
    obtain ⟨ho₁, hassigns₁, hsame₁, hcells₁⟩ := ih rfl
    generalize List.foldl _ h (List.range k) = h₁ at hh' ho₁ hassigns₁ hsame₁ hcells₁
    subst hh'
    have hord₁ := ho₁.versions.ordered
    refine ⟨ho₁.change s _, fun p c hp hassigns => ?_, fun q hq => ?_, ?_⟩
    · exact hassigns₁ p c (by omega)
        (hassigns.of_setInternal hord₁ ho₁.sized (s + 1) (values k) false (by omega))
    · have heffect := change_effect hord₁ s (.set ((offset + k : ℕ) : ℤ) (values k))
      exact (heffect.apart q fun habove => Nat.not_le.2 hq (habove.le hord₁)).trans (hsame₁ q hq)
    · have hstep := setInternal_cells hord₁ ho₁.sized (s + 1) s (offset + k) (values k) false
      refine (hcells₁.mono fun c hc => ?_).trans hstep fun c hc => ?_
      · obtain ⟨i, hi, hassigns⟩ := hc
        exact ⟨i, Nat.lt_succ_of_lt hi, hassigns⟩
      · exact ⟨k, Nat.lt_add_one k, hassigns₁ _ c (Nat.le_refl _) hc⟩

/-- A sort in which no call fails is the one that chains of views know. -/
theorem sortWith_of_succeeds (ho : Orderly h) (ha : h.array? r = some a)
    (hsucceeds : P.Succeeds (h.live r)) : h.sortWith r P = (h.sortArray r P.greater, true) := by
  obtain ⟨ws, ended, hloop, hended, hsorted, -⟩ := sortLoop_start P (h.live r)
  rw [length_live ho.sized ha] at hloop
  rw [live_eq ha] at hloop hsorted
  obtain rfl := hended.2 hsucceeds
  rw [sortWith, sortArray, rearrange, ha]
  dsimp only
  rw [hloop, hsorted rfl]
  rfl

/-- A sort on the array and its cells. -/
theorem sortWith_spec (ho : Orderly h) (ha : h.array? r = some a) (P : Comparator) :
    ∃ ended, (h.sortWith r P).2 = ended ∧ (ended = true ↔ P.Succeeds (h.live r)) ∧
      (ended = true → (h.sortWith r P).1.live r = sortElements P.greater (h.live r)) ∧
      (((h.sortWith r P).1.live r).Perm (h.live r) ↔ P.FailsFirst (h.live r)) ∧
      CellsBut h (h.sortWith r P).1 fun c => ended = true ∧
        ∃ s, a.viewSource = some s ∧ ∃ i < a.count, h.Assigns s (a.viewOffset + i) c := by
  obtain ⟨ws, ended, hloop, hended, hsorted, hperm⟩ := sortLoop_start P (h.live r)
  have hlen : (h.live r).length = a.count := length_live ho.sized ha
  have hws : ws.length = a.count := by
    have hsame := length_sortLoop P ((h.live r).length - 1) 1 0 (h.live r)
    rw [hloop] at hsame
    exact hsame.trans hlen
  rw [hlen, live_eq ha] at hloop
  have hsort : h.sortWith r P = (if ended then
      (h.set r (.array { a with elements := ws ++ a.elements.drop a.count })).syncView r else
      h.set r (.array { a with elements := ws ++ a.elements.drop a.count }), ended) := by
    rw [sortWith, ha]
    dsimp only
    rw [hloop]
  have hset := array?_setArray ha { a with elements := ws ++ a.elements.drop a.count }
  have hstore : Orderly (h.set r (.array { a with elements := ws ++ a.elements.drop a.count })) := by
    refine ho.store ha ?_
    rw [List.length_append, hws, List.length_drop]
    have := ho.sized r a ha
    omega
  have hcells : SameButArrays h (h.set r (.array { a with elements := ws ++ a.elements.drop a.count })) :=
    .set ha _
  have hself : Heap.array? (h.set r (.array { a with elements := ws ++ a.elements.drop a.count })) r =
      some { a with elements := ws ++ a.elements.drop a.count } := (hset r).trans (if_pos rfl)
  have hlive : Heap.live (h.set r (.array { a with elements := ws ++ a.elements.drop a.count })) r = ws := by
    rw [live_eq hself, ArrayObj.live]
    exact List.take_left' hws
  rw [hsort]
  generalize h.set r (.array { a with elements := ws ++ a.elements.drop a.count }) = h₁
    at hset hstore hcells hself hlive ⊢
  dsimp only
  refine ⟨ended, rfl, hended, ?_⟩
  cases ended with
  | false =>
    rw [if_neg Bool.false_ne_true, hlive]
    exact ⟨fun h => absurd h Bool.false_ne_true, hperm, hcells.cellsBut _⟩
  | true =>
    rw [if_pos rfl, syncView, hself]
    dsimp only
    cases hview : a.viewSource with
    | none =>
      dsimp only
      rw [hlive]
      exact ⟨hsorted, hperm, hcells.cellsBut _⟩
    | some s =>
      dsimp only
      have hlt := ho.versions.ordered.older r s ⟨a, ha, hview⟩
      obtain ⟨-, -, hsame, hcells'⟩ := foldl_set_spec hstore s a.viewOffset
        (fun i => (ws ++ a.elements.drop a.count).getD i .null) a.count rfl
      generalize List.foldl _ h₁ _ = h₂ at hsame hcells' ⊢
      have hlive₂ : h₂.live r = ws := by rw [live_eq ((hsame r hlt).trans hself), ← live_eq hself, hlive]
      rw [hlive₂]
      refine ⟨hsorted, hperm, (hcells.cellsBut _).trans hcells' fun c hc => ?_⟩
      obtain ⟨i, hi, hassigns⟩ := hc
      refine ⟨rfl, s, rfl, i, hi, hassigns.congr hstore.versions.ordered (fun p hp => ?_)
        fun c => by rw [hcells.cell?]⟩
      rw [hset, if_neg (Nat.ne_of_gt (Nat.lt_of_le_of_lt hp hlt))]

end Sync

end Heap

end Slp
