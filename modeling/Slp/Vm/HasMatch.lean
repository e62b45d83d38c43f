import Mathlib.Data.List.Nodup
import Mathlib.Data.List.Perm.Basic
import Slp.Stdlib.Replace
import Slp.Vm.RegexFind

/-!
# The states of `hasmatch`

A closure keeps, for at most 16 pairs of a text and a pattern, where the next call searches on.  Strings
are interned: two of them are one object when they have the same bytes.

* `regexHasmatch?` : `regex_hasmatch`, none where an `int` overflows;
* `HasMatchLaw` : what a closure owes its callers after any calls;
* `hasMatchLaw_of_run` : **it does when the texts and the patterns of the calls are plain and there
  are fewer than 2 ^ 64 calls.**
-/

namespace Slp

/-- A text and a pattern. -/
structure RegexKey where
  text : Text
  pattern : Text

namespace Text

theorem ext {s t : Text} (h : s.chars = t.chars) : s = t := by
  cases s
  cases t
  cases h
  rfl

instance : DecidableEq Text := fun s t => decidable_of_iff (s.chars = t.chars) ⟨ext, congrArg chars⟩

end Text

deriving instance DecidableEq for RegexKey

/-- `SlpRegexState`. -/
structure MatchState where
  key : RegexKey
  nextOffset : ℤ := 0
  sequence : ℕ := 0
  deriving DecidableEq

/-- The regex states of a closure. -/
structure MatchStates where
  states : List MatchState := []
  nextRegexSequence : ℕ := 0

/-- The loop that looks for the state with the least sequence number, with the best one so far. -/
def leastLoop (states : List MatchState) (best : MatchState) : (fuel i bestIndex : ℕ) → ℕ
  | 0, _, bestIndex => bestIndex
  | fuel + 1, i, bestIndex =>
    let state := states.getD i best
    if state.sequence < best.sequence then leastLoop states state fuel (i + 1) i
    else leastLoop states best fuel (i + 1) bestIndex

/-- The state for a key: its own, a new one, or that of the key that was used least recently. -/
def takeState (σ : MatchStates) (key : RegexKey) : ℕ × List MatchState :=
  match σ.states.findIdx? (·.key = key) with
  | some i => (i, σ.states)
  | none =>
    if σ.states.length < 16 then (σ.states.length, σ.states ++ [{ key := key }])
    else
      match σ.states with
      | [] => (0, [])
      | first :: rest =>
        let i := leastLoop (first :: rest) first rest.length 1 0
        (i, (first :: rest).modify i fun state => { state with key, nextOffset := 0 })

/-- The last state takes the place of a removed one. -/
def swapRemove {α : Type*} (l : List α) (i : ℕ) : List α :=
  match l.getLast? with
  | some last => (if i ≠ l.length - 1 then l.set i last else l).dropLast
  | none => []

/-- Where the next call searches on: one byte behind an empty match. -/
def nextOffset? (found : RegexFound) : Option ℤ :=
  if found.matchEnd = found.matchStart then CInt.checked (found.matchEnd + 1) else some found.matchEnd

/-- `regex_hasmatch`: what is found, which is the answer `true` unless it begins at -1, and the states
after it. -/
def regexHasmatch? (engine : Bytes → Engine) (σ : MatchStates) (key : RegexKey) :
    Option (RegexFound × MatchStates) := do
  let (i, states) := takeState σ key
  let sequence := (σ.nextRegexSequence + 1) % 18446744073709551616
  let states := states.modify i fun state => { state with sequence }
  let state := states.getD i { key := key }
  let found ← regexFind? (engine (cstring key.pattern.chars)) key.text.chars state.nextOffset false
  if found.matchStart < 0 then return (found, ⟨swapRemove states i, sequence⟩)
  let nextOffset ← nextOffset? found
  return (found, ⟨states.modify i fun state => { state with nextOffset }, sequence⟩)

/-! ### Taking a state -/

section

variable {states base : List MatchState} {state best : MatchState} {key : RegexKey} {i j : ℕ} {offset : ℤ}

/-- The loop ends at a state with the least sequence number. -/
theorem leastLoop_spec {fuel bestIndex : ℕ} (hlength : i + fuel = states.length)
    (hbest : states[bestIndex]? = some best)
    (hleast : ∀ j < i, ∀ state, states[j]? = some state → best.sequence ≤ state.sequence) :
    ∃ state, states[leastLoop states best fuel i bestIndex]? = some state ∧
      ∀ other ∈ states, state.sequence ≤ other.sequence := by
  induction fuel generalizing i best bestIndex with
  | zero =>
    rw [leastLoop]
    refine ⟨best, hbest, fun other hother => ?_⟩
    obtain ⟨j, hj, rfl⟩ := List.getElem_of_mem hother
    exact hleast j (by omega) _ (List.getElem?_eq_getElem hj)
  | succ fuel ih =>
    have hi : states[i]? = some states[i] := List.getElem?_eq_getElem (by omega)
    rw [leastLoop, List.getD_eq_getElem?_getD, hi, Option.getD_some]
    split_ifs with hless
    · refine ih (by omega) hi fun j hj other hother => ?_
      rcases Nat.lt_succ_iff_lt_or_eq.1 hj with hj | rfl
      · exact hless.le.trans (hleast j hj other hother)
      · rw [hi] at hother
        exact (congrArg MatchState.sequence (Option.some.inj hother)).le
    · refine ih (by omega) hbest fun j hj other hother => ?_
      rcases Nat.lt_succ_iff_lt_or_eq.1 hj with hj | rfl
      · exact hleast j hj other hother
      · rw [hi] at hother
        rw [← Option.some.inj hother]
        exact Nat.not_lt.1 hless

/-- A state has been taken: `state` is at `i`, and `base` are the others. -/
structure Taken (states : List MatchState) (i : ℕ) (state : MatchState) (base : List MatchState) : Prop where
  at_index : states[i]? = some state
  others : (states.eraseIdx i).Perm base

theorem Taken.lt (h : Taken states i state base) : i < states.length :=
  (List.getElem?_eq_some_iff.1 h.at_index).1

theorem Taken.perm (h : Taken states i state base) : states.Perm (state :: base) := by
  obtain ⟨hi, heq⟩ := List.getElem?_eq_some_iff.1 h.at_index
  refine (List.getElem_cons_eraseIdx_perm hi).symm.trans ?_
  rw [heq]
  exact h.others.cons state

theorem Taken.modify (h : Taken states i state base) (f : MatchState → MatchState) :
    Taken (states.modify i f) i (f state) base where
  at_index := by
    rw [List.getElem?_modify_eq, h.at_index]
    rfl
  others := by
    rw [List.eraseIdx_modify_of_eq]
    exact h.others

/-- The others stay when the last state takes the place of a removed one. -/
theorem Taken.swapRemove (h : Taken states i state base) : (swapRemove states i).Perm base := by
  refine List.Perm.trans ?_ h.others
  have hi := h.lt
  obtain ⟨init, last, rfl⟩ := List.eq_nil_or_concat' states |>.resolve_left fun hnil => by
    rw [hnil] at hi
    exact Nat.not_lt_zero i hi
  rw [List.length_append, List.length_singleton] at hi
  rw [Slp.swapRemove, List.getLast?_append_of_ne_nil _ (by simp), List.getLast?_singleton]
  dsimp only
  rw [List.length_append, List.length_singleton, Nat.add_sub_cancel]
  by_cases hlast : i = init.length
  · rw [if_neg (not_not.2 hlast), List.dropLast_concat, hlast,
      List.eraseIdx_append_of_length_le le_rfl, Nat.sub_self]
    simp
  · have hlt : i < init.length := by omega
    rw [if_pos hlast, List.set_append_left _ _ hlt, List.dropLast_concat,
      List.eraseIdx_append_of_lt_length hlt]
    exact (List.set_perm_cons_eraseIdx hlt last).trans (List.perm_append_singleton last _).symm

/-- Which states are left, and where the search goes on, when a state is taken for a key. -/
inductive Prepared (states : List MatchState) (key : RegexKey) : List MatchState → ℤ → Prop where
  | own {state : MatchState} {base : List MatchState} (hkey : state.key = key)
      (hperm : states.Perm (state :: base)) : Prepared states key base state.nextOffset
  | room (hnew : ∀ state ∈ states, state.key ≠ key) (hroom : states.length < 16) :
      Prepared states key states 0
  | evict {victim : MatchState} {base : List MatchState} (hnew : ∀ state ∈ states, state.key ≠ key)
      (hfull : 16 ≤ states.length) (hleast : ∀ state ∈ states, victim.sequence ≤ state.sequence)
      (hperm : states.Perm (victim :: base)) : Prepared states key base 0

/-- The position that is searched from. -/
theorem Prepared.exists_nat (h : Prepared states key base offset)
    (hoffset : ∀ state ∈ states, 0 ≤ state.nextOffset) : ∃ p : ℕ, offset = p := by
  refine ⟨offset.toNat, (Int.toNat_of_nonneg ?_).symm⟩
  cases h with
  | own hkey hperm => exact hoffset _ (hperm.mem_iff.2 List.mem_cons_self)
  | room | evict => exact Int.le_refl 0

theorem takeState_spec (σ : MatchStates) (key : RegexKey) :
    ∃ base state, Prepared σ.states key base state.nextOffset ∧ state.key = key ∧
      Taken (takeState σ key).2 (takeState σ key).1 state base := by
  rw [takeState]
  cases hfind : σ.states.findIdx? (·.key = key) with
  | some i =>
    obtain ⟨hi, hkey, -⟩ := List.findIdx?_eq_some_iff_getElem.1 hfind
    have htaken : Taken σ.states i σ.states[i] (σ.states.eraseIdx i) :=
      ⟨List.getElem?_eq_getElem hi, .refl _⟩
    exact ⟨_, _, .own (of_decide_eq_true hkey) htaken.perm, of_decide_eq_true hkey, htaken⟩
  | none =>
    have hnew : ∀ state ∈ σ.states, state.key ≠ key := fun state hstate =>
      of_decide_eq_false (List.findIdx?_eq_none_iff.1 hfind state hstate)
    dsimp only
    split_ifs with hroom
    · refine ⟨σ.states, { key := key }, .room hnew hroom, rfl, ?_, ?_⟩
      · rw [List.getElem?_append_right le_rfl, Nat.sub_self]
        rfl
      · rw [List.eraseIdx_append_of_length_le le_rfl, Nat.sub_self]
        simp
    · cases hstates : σ.states with
      | nil =>
        rw [hstates] at hroom
        exact absurd (by decide) hroom
      | cons first rest =>
        rw [hstates] at hnew hroom
        obtain ⟨victim, hvictim, hleast⟩ := @leastLoop_spec (first :: rest) first 1
          rest.length 0 (by rw [List.length_cons]; omega) rfl (by
            intro j hj state hstate
            obtain rfl : j = 0 := by omega
            exact (congrArg MatchState.sequence (Option.some.inj hstate)).le)
        have htaken : Taken (first :: rest) (leastLoop (first :: rest) first rest.length 1 0) victim _ :=
          ⟨hvictim, .refl _⟩
        exact ⟨_, _, .evict hnew (Nat.not_lt.1 hroom) hleast htaken.perm, rfl, htaken.modify _⟩

end

/-! ### One call -/

/-- C sees all of the text and of the pattern, and its positions are of type `int`. -/
structure RegexKey.Plain (key : RegexKey) : Prop where
  text : 0 ∉ key.text.chars
  pattern : 0 ∉ key.pattern.chars
  small : key.text.length < 2147483647

/-- The matches of the pattern in the text. -/
def RegexKey.searcher (engine : Bytes → Engine) (key : RegexKey) : Searcher key.text.chars.length :=
  (engine key.pattern.chars).searcher key.text.chars

section

variable {engine : Bytes → Engine} {σ σ' : MatchStates} {key : RegexKey}

theorem nextOffset?_eq {s e : ℕ} {captures : Option (List Bytes)} (hse : s ≤ e) (he : e < 2147483648) :
    nextOffset? { matchStart := s, matchEnd := e, captures } =
      if MatchFits (s, e) then some ((Searcher.next s e : ℕ) : ℤ) else none := by
  unfold nextOffset? Searcher.next
  dsimp only
  by_cases hlt : s < e
  · rw [if_neg (by omega), if_pos hlt, if_pos (matchFits_iff.2 (by omega))]
  · rw [if_pos (by omega), if_neg hlt]
    by_cases hmax : e = 2147483647
    · rw [if_neg fun hfits => matchFits_iff.1 hfits ⟨by omega, hmax⟩, CInt.checked_eq_none.2 fun hfit => by
        have := hfit.2
        omega]
    · rw [if_pos (matchFits_iff.2 (by omega)), CInt.checked_of_isInt ⟨by omega, by omega⟩]
      rfl

/-- A call, from the state that is taken: what is left when nothing is found, and the others with the
position behind a match. -/
theorem regexHasmatch?_eq {base : List MatchState} {state : MatchState} {p : ℕ}
    (htaken : Taken (takeState σ key).2 (takeState σ key).1 state base) (hkey : state.key = key)
    (hp : state.nextOffset = p) (hpattern : 0 ∉ key.pattern.chars)
    (hfind : regexFind? (engine key.pattern.chars) key.text.chars p false =
      some ((engine key.pattern.chars).found key.text.chars p))
    (hsmall : ∀ s e, (key.searcher engine).find p = some (s, e) → e < 2147483648) :
    ∃ (left : List MatchState) (moved : ℕ → List MatchState), left.Perm base ∧
      (∀ n : ℕ, (moved n).Perm (⟨key, n, (σ.nextRegexSequence + 1) % 18446744073709551616⟩ :: base)) ∧
      regexHasmatch? engine σ key =
        match (key.searcher engine).find p with
        | none => some ((engine key.pattern.chars).found key.text.chars p,
            ⟨left, (σ.nextRegexSequence + 1) % 18446744073709551616⟩)
        | some (s, e) =>
          if MatchFits (s, e) then
            some ((engine key.pattern.chars).found key.text.chars p,
              ⟨moved (Searcher.next s e), (σ.nextRegexSequence + 1) % 18446744073709551616⟩)
          else none := by
  rw [regexHasmatch?]
  generalize takeState σ key = taken at htaken
  obtain ⟨i, states⟩ := taken
  dsimp only at htaken ⊢
  have htaken' := htaken.modify fun state =>
    { state with sequence := (σ.nextRegexSequence + 1) % 18446744073709551616 }
  refine ⟨_, fun n => (states.modify i fun state =>
      { state with sequence := (σ.nextRegexSequence + 1) % 18446744073709551616 }).modify i
        fun state => { state with nextOffset := (n : ℤ) }, htaken'.swapRemove, fun n => ?_, ?_⟩
  · have hset := (htaken'.modify fun state => { state with nextOffset := (n : ℤ) }).perm
    dsimp only at hset
    rwa [hkey] at hset
  · rw [List.getD_eq_getElem?_getD, htaken'.at_index, Option.getD_some, cstring_of_notMem hpattern, hp, hfind]
    dsimp only [Option.bind_eq_bind, Option.bind_some]
    unfold RegexKey.searcher at hsmall ⊢
    cases hmatch : ((engine key.pattern.chars).searcher key.text.chars).find p with
    | none =>
      rw [Engine.found_of_none hmatch, if_pos (by decide)]
      rfl
    | some m =>
      obtain ⟨s, e⟩ := m
      have hin := Searcher.inside _ hmatch
      rw [Engine.found_of_some hmatch]
      dsimp only
      rw [if_neg (by omega), nextOffset?_eq hin.2.1 (hsmall s e hmatch)]
      split_ifs <;> rfl

/-- **What a call does.**  A state is taken, the search goes on where it says, and the state stays,
with the position behind the match, if there is one. -/
theorem regexHasmatch?_spec (engine : Bytes → Engine) (hplain : key.Plain)
    (hoffset : ∀ state ∈ σ.states, 0 ≤ state.nextOffset) :
    ∃ (base : List MatchState) (p : ℕ) (σ' : MatchStates), Prepared σ.states key base p ∧
      regexHasmatch? engine σ key =
        some ((engine key.pattern.chars).found key.text.chars p, σ') ∧
      σ'.nextRegexSequence = (σ.nextRegexSequence + 1) % 18446744073709551616 ∧
      σ'.states.Perm (match (key.searcher engine).find p with
        | none => base
        | some (s, e) => ⟨key, (Searcher.next s e : ℕ), σ'.nextRegexSequence⟩ :: base) := by
  obtain ⟨base, state, hprepared, hkey, htaken⟩ := takeState_spec σ key
  obtain ⟨p, hp⟩ := hprepared.exists_nat hoffset
  rw [hp] at hprepared
  have hlength := hplain.small
  rw [Text.length] at hlength
  have hfind := @regexFind?_eq (engine key.pattern.chars) key.text.chars
    (by rw [cstring_of_notMem hplain.text]; omega) p
  rw [cstring_of_notMem hplain.text] at hfind
  have hin : ∀ s e, (key.searcher engine).find p = some (s, e) → e ≤ key.text.chars.length :=
    fun s e hmatch => (Searcher.inside _ hmatch).2.2
  obtain ⟨left, moved, hleft, hmoved, hcall⟩ := regexHasmatch?_eq htaken hkey hp hplain.pattern hfind
    fun s e hmatch => (hin s e hmatch).trans_lt (by omega)
  refine ⟨base, p, ?_⟩
  cases hmatch : (key.searcher engine).find p with
  | none =>
    rw [hmatch] at hcall
    exact ⟨_, hprepared, hcall, rfl, hleft⟩
  | some m =>
    obtain ⟨s, e⟩ := m
    have hle := hin s e hmatch
    rw [hmatch] at hcall
    dsimp only at hcall
    rw [if_pos (matchFits_iff.2 (by omega))] at hcall
    exact ⟨_, hprepared, hcall, rfl, hmoved _⟩

end

/-! ### Runs -/

/-- A call, and what it found. -/
abbrev MatchCall := RegexKey × RegexFound

/-- The match that an answer is about; there is none when it is `false`. -/
def RegexFound.match? (found : RegexFound) : Option (ℤ × ℤ) :=
  if found.matchStart < 0 then none else some (found.matchStart, found.matchEnd)

namespace MatchStates

/-- The keys that a closure holds. -/
def keys (σ : MatchStates) : List RegexKey := σ.states.map (·.key)

variable (engine : Bytes → Engine)

/-- The calls of a closure, the newest in front. -/
inductive Run : List MatchCall → MatchStates → Prop where
  | fresh : Run [] {}
  | call {log : List MatchCall} {σ σ' : MatchStates} {key : RegexKey} {found : RegexFound}
      (hrun : Run log σ) (hcall : regexHasmatch? engine σ key = some (found, σ')) :
      Run ((key, found) :: log) σ'

/-- The calls from a state on, none of which evicts a key. -/
inductive Keeps (key : RegexKey) (σ₁ : MatchStates) : List MatchCall → MatchStates → Prop where
  | refl : Keeps key σ₁ [] σ₁
  | call {log : List MatchCall} {σ σ' : MatchStates} {other : RegexKey} {found : RegexFound}
      (hkeeps : Keeps key σ₁ log σ) (hcall : regexHasmatch? engine σ other = some (found, σ'))
      (hstays : other ≠ key → key ∈ σ.keys → key ∈ σ'.keys) : Keeps key σ₁ ((other, found) :: log) σ'

end MatchStates

open MatchStates

/-- The number of the last call with a key. -/
def lastUse (key : RegexKey) : List MatchCall → ℕ
  | [] => 0
  | call :: log => if call.1 = key then log.length + 1 else lastUse key log

/-- The answers to the calls with a key, the oldest first. -/
def answers (key : RegexKey) (log : List MatchCall) : List (Option (ℤ × ℤ)) :=
  ((log.filter (·.1 = key)).map (·.2.match?)).reverse

/-- The matches one after the other, then none, and so on from the beginning. -/
def inTurn (ms : List (ℕ × ℕ)) (j : ℕ) : Option (ℤ × ℤ) :=
  ms[j % (ms.length + 1)]?.map fun m => (m.1, m.2)

/-- What a closure owes its callers in a state that it reached. -/
structure HasMatchLaw (engine : Bytes → Engine) (log : List MatchCall) (σ : MatchStates) : Prop where
  bounded : σ.states.length ≤ 16
  distinct : σ.keys.Nodup
  offset : ∀ state ∈ σ.states, 0 ≤ state.nextOffset ∧ state.nextOffset ≤ state.key.text.length + 1
  /-- A new key over the limit evicts the one that was used least recently, and no other. -/
  evicts : ∀ key found σ', regexHasmatch? engine σ key = some (found, σ') → key ∉ σ.keys →
    σ.states.length = 16 → ∃ victim ∈ σ.states,
      (∀ state ∈ σ.states, lastUse victim.key log ≤ lastUse state.key log) ∧
        ∀ state ∈ σ.states, state ∈ σ'.states ↔ state ≠ victim
  /-- Otherwise the states of the other keys stay as they are. -/
  stays : ∀ key found σ', regexHasmatch? engine σ key = some (found, σ') →
    key ∈ σ.keys ∨ σ.states.length < 16 →
      ∀ state ∈ σ.states, state.key ≠ key → state ∈ σ'.states
  /-- As long as a key is not evicted its calls answer with the matches in turn. -/
  inTurn : ∀ key before after σ₁, log = after ++ before → Run engine before σ₁ → key ∉ σ₁.keys →
    MatchStates.Keeps engine key σ₁ after σ →
      answers key after = (List.range (answers key after).length).map
        (Slp.inTurn ((key.searcher engine).successive 0))

/-! ### The invariant -/

section

variable {engine : Bytes → Engine} {log before after : List MatchCall} {σ σ' σ₁ : MatchStates}
  {key other : RegexKey} {found : RegexFound} {states base : List MatchState} {state : MatchState}
  {offset : ℤ} {n : ℕ}

theorem Prepared.subset (h : Prepared states key base offset) : base ⊆ states := by
  cases h with
  | own hkey hperm | evict hnew hfull hleast hperm =>
    exact fun state hstate => hperm.mem_iff.2 (List.mem_cons_of_mem _ hstate)
  | room => exact List.Subset.refl _

theorem Prepared.length_lt (h : Prepared states key base offset) (hle : states.length ≤ 16) :
    base.length < 16 := by
  cases h with
  | own hkey hperm | evict hnew hfull hleast hperm =>
    have hlength := hperm.length_eq
    rw [List.length_cons] at hlength
    omega
  | room hnew hroom => exact hroom

/-- The others have other keys, which differ. -/
theorem Prepared.nodup (h : Prepared states key base offset) (hnodup : (states.map (·.key)).Nodup) :
    key ∉ base.map (·.key) ∧ (base.map (·.key)).Nodup := by
  cases h with
  | own hkey hperm =>
    have hcons := (hperm.map (·.key)).nodup_iff.1 hnodup
    rw [List.map_cons, List.nodup_cons, hkey] at hcons
    exact hcons
  | room hnew => exact ⟨fun hmem => by
      obtain ⟨state, hstate, hkey⟩ := List.mem_map.1 hmem
      exact hnew state hstate hkey, hnodup⟩
  | evict hnew hfull hleast hperm =>
    have hcons := (hperm.map (·.key)).nodup_iff.1 hnodup
    rw [List.map_cons, List.nodup_cons] at hcons
    refine ⟨fun hmem => ?_, hcons.2⟩
    obtain ⟨state, hstate, hkey⟩ := List.mem_map.1 hmem
    exact hnew state (hperm.mem_iff.2 (List.mem_cons_of_mem _ hstate)) hkey

/-- A call leaves the others as they are, with or without its own state. -/
theorem regexHasmatch?_perm (hcall : regexHasmatch? engine σ key = some (found, σ')) :
    ∃ base offset, Prepared σ.states key base offset ∧
      (σ'.states.Perm base ∨ ∃ state, state.key = key ∧ σ'.states.Perm (state :: base)) := by
  obtain ⟨base, state, hprepared, hkey, htaken⟩ := takeState_spec σ key
  refine ⟨base, _, hprepared, ?_⟩
  rw [regexHasmatch?] at hcall
  generalize takeState σ key = taken at htaken hcall
  obtain ⟨i, states⟩ := taken
  dsimp only at htaken hcall
  have htaken' := htaken.modify fun state =>
    { state with sequence := (σ.nextRegexSequence + 1) % 18446744073709551616 }
  obtain ⟨found', -, hcall⟩ := Option.bind_eq_some_iff.1 hcall
  split_ifs at hcall
  · cases hcall
    exact .inl htaken'.swapRemove
  · obtain ⟨next, -, hcall⟩ := Option.bind_eq_some_iff.1 hcall
    cases hcall
    exact .inr ⟨⟨state.key, next, (σ.nextRegexSequence + 1) % 18446744073709551616⟩, hkey,
      (htaken'.modify fun state => { state with nextOffset := next }).perm⟩

/-- What holds of a state that is kept. -/
structure Kept (log : List MatchCall) (state : MatchState) : Prop where
  used : state.sequence = lastUse state.key log
  nonneg : 0 ≤ state.nextOffset
  le : state.nextOffset ≤ state.key.text.length + 1

/-- What holds in every state that is reached. -/
structure Cached (log : List MatchCall) (σ : MatchStates) : Prop where
  count : σ.nextRegexSequence = log.length
  bounded : σ.states.length ≤ 16
  nodup : σ.keys.Nodup
  kept : ∀ state ∈ σ.states, Kept log state

theorem Kept.cons (h : Kept log state) (hne : state.key ≠ key) : Kept ((key, found) :: log) state where
  used := by rw [lastUse, if_neg fun heq => hne heq.symm, h.used]
  nonneg := h.nonneg
  le := h.le

theorem Cached.step (hc : Cached log σ) (hplain : key.Plain) (hfew : log.length + 1 < 18446744073709551616) :
    ∃ found σ', regexHasmatch? engine σ key = some (found, σ') ∧ Cached ((key, found) :: log) σ' := by
  obtain ⟨base, p, σ', hprepared, hcall, hcount, hperm⟩ :=
    regexHasmatch?_spec engine hplain fun state hstate => (hc.kept state hstate).nonneg
  refine ⟨_, σ', hcall, ?_⟩
  have hbase := hprepared.nodup hc.nodup
  have hlt := hprepared.length_lt hc.bounded
  have hsequence : σ'.nextRegexSequence = log.length + 1 := by
    rw [hcount, hc.count, Nat.mod_eq_of_lt hfew]
  have hkept : ∀ state ∈ base, ∀ found, Kept ((key, found) :: log) state := fun state hstate found =>
    (hc.kept state (hprepared.subset hstate)).cons fun hkey =>
      hbase.1 (List.mem_map.2 ⟨state, hstate, hkey⟩)
  cases hfind : (key.searcher engine).find p with
  | none =>
    rw [hfind] at hperm
    refine ⟨hsequence, ?_, (hperm.map _).nodup_iff.2 hbase.2, fun state hstate => ?_⟩
    · rw [hperm.length_eq]
      exact hlt.le
    · exact hkept state (hperm.mem_iff.1 hstate) _
  | some m =>
    obtain ⟨s, e⟩ := m
    rw [hfind] at hperm
    refine ⟨hsequence, ?_, ?_, fun state hstate => ?_⟩
    · rw [hperm.length_eq]
      exact hlt
    · refine (hperm.map _).nodup_iff.2 ?_
      rw [List.map_cons, List.nodup_cons]
      exact hbase
    · rcases List.mem_cons.1 (hperm.mem_iff.1 hstate) with rfl | hstate
      · -- the state of the call itself
        have hin := Searcher.inside _ hfind
        have hle := Searcher.next_le s e
        refine ⟨?_, ?_, ?_⟩
        · rw [lastUse, if_pos rfl, ← hsequence]
        · exact Int.natCast_nonneg _
        · simp only [Text.length]
          omega
      · exact hkept state hstate _

/-! ### The answers of a key -/

/-- Where a key is among its matches after `n` calls. -/
def Position (engine : Bytes → Engine) (key : RegexKey) (σ : MatchStates) (n : ℕ) : Prop :=
  let ms := (key.searcher engine).successive 0
  let i := n % (ms.length + 1)
  i = 0 ∧ key ∉ σ.keys ∨
    i ≠ 0 ∧ ∃ state ∈ σ.states, state.key = key ∧
      ms.drop i = (key.searcher engine).successive state.nextOffset.toNat

theorem eq_of_key (hnodup : σ.keys.Nodup) {state state' : MatchState} (hstate : state ∈ σ.states)
    (hstate' : state' ∈ σ.states) (hkey : state.key = state'.key) : state = state' :=
  List.inj_on_of_nodup_map hnodup hstate hstate' hkey

/-- The search of a call goes on where its key is. -/
theorem Position.drop (hpos : Position engine key σ n) (hnodup : σ.keys.Nodup) {p : ℕ}
    (hprepared : Prepared σ.states key base p) :
    ((key.searcher engine).successive 0).drop (n % (((key.searcher engine).successive 0).length + 1)) =
      (key.searcher engine).successive p := by
  have hfresh : (∀ state ∈ σ.states, state.key ≠ key) →
      n % (((key.searcher engine).successive 0).length + 1) = 0 := by
    intro hnew
    rcases hpos with ⟨hzero, -⟩ | ⟨-, state, hstate, hkey, -⟩
    · exact hzero
    · exact absurd hkey (hnew state hstate)
  generalize hoffset : (p : ℤ) = offset at hprepared
  cases hprepared with
  | @own state _ hkey hperm =>
    have hstate : state ∈ σ.states := hperm.mem_iff.2 List.mem_cons_self
    rcases hpos with ⟨-, habsent⟩ | ⟨-, state', hstate', hkey', hdrop⟩
    · exact absurd (List.mem_map.2 ⟨state, hstate, hkey⟩) habsent
    · rw [eq_of_key hnodup hstate' hstate (hkey'.trans hkey.symm), ← hoffset, Int.toNat_natCast] at hdrop
      exact hdrop
  | room hnew | evict hnew =>
    rw [hfresh hnew, show p = 0 by omega, List.drop_zero]

/-- A call with another key does not move a key that stays. -/
theorem Position.of_other (hpos : Position engine key σ n) (hnodup : σ.keys.Nodup)
    (hcall : regexHasmatch? engine σ other = some (found, σ')) (hne : other ≠ key)
    (hstays : key ∈ σ.keys → key ∈ σ'.keys) : Position engine key σ' n := by
  obtain ⟨base, offset, hprepared, hperm⟩ := regexHasmatch?_perm hcall
  -- a state of the key has been there before
  have hback : ∀ state ∈ σ'.states, state.key = key → state ∈ σ.states := by
    intro state hstate hkey
    refine hprepared.subset ?_
    rcases hperm with hperm | ⟨own, hown, hperm⟩
    · exact hperm.mem_iff.1 hstate
    · rcases List.mem_cons.1 (hperm.mem_iff.1 hstate) with rfl | hstate
      · exact absurd (hown.symm.trans hkey) hne
      · exact hstate
  rcases hpos with ⟨hzero, habsent⟩ | ⟨hzero, state, hstate, hkey, hdrop⟩
  · refine .inl ⟨hzero, fun hmem => habsent ?_⟩
    obtain ⟨state, hstate, hkey⟩ := List.mem_map.1 hmem
    exact List.mem_map.2 ⟨state, hback state hstate hkey, hkey⟩
  · obtain ⟨state', hstate', hkey'⟩ := List.mem_map.1 (hstays (List.mem_map.2 ⟨state, hstate, hkey⟩))
    have heq := eq_of_key hnodup (hback state' hstate' hkey') hstate (hkey'.trans hkey.symm)
    rw [heq] at hstate'
    exact .inr ⟨hzero, state, hstate', hkey, hdrop⟩

theorem succ_mod {n m : ℕ} (h : n % (m + 1) = m) : (n + 1) % (m + 1) = 0 := by
  rw [Nat.succ_mod_succ_eq_zero_iff]
  exact h

theorem succ_mod_of_lt {n m : ℕ} (h : n % (m + 1) < m) : (n + 1) % (m + 1) = n % (m + 1) + 1 := by
  rw [Nat.add_mod, Nat.mod_eq_of_lt (show 1 < m + 1 by omega), Nat.mod_eq_of_lt (by omega)]

/-- A call answers with the next match, or with none behind the last one, and moves its key on. -/
theorem Position.of_own (hc : Cached log σ) (hplain : key.Plain) (hpos : Position engine key σ n)
    (hcall : regexHasmatch? engine σ key = some (found, σ')) :
    found.match? = inTurn ((key.searcher engine).successive 0) n ∧ Position engine key σ' (n + 1) := by
  obtain ⟨base, p, σ'', hprepared, hcall', -, hperm⟩ :=
    regexHasmatch?_spec engine hplain fun state hstate => (hc.kept state hstate).nonneg
  obtain ⟨rfl, rfl⟩ := Prod.mk.inj (Option.some.inj (hcall.symm.trans hcall'))
  have hdrop := hpos.drop hc.nodup hprepared
  have hmod : n % (((key.searcher engine).successive 0).length + 1) <
      ((key.searcher engine).successive 0).length + 1 := Nat.mod_lt _ (Nat.succ_pos _)
  have hget := @List.getElem?_drop _ ((key.searcher engine).successive 0)
    (n % (((key.searcher engine).successive 0).length + 1)) 0
  rw [hdrop, Nat.add_zero] at hget
  unfold Position inTurn
  dsimp only
  cases hfind : (key.searcher engine).find p with
  | none =>
    rw [Searcher.successive_of_none _ hfind] at hdrop hget
    rw [hfind] at hperm
    have hlast : n % (((key.searcher engine).successive 0).length + 1) =
        ((key.searcher engine).successive 0).length := by
      have hle := List.drop_eq_nil_iff.1 hdrop
      omega
    refine ⟨?_, .inl ⟨succ_mod hlast, ?_⟩⟩
    · rw [Engine.found_of_none hfind, ← hget]
      rfl
    · rw [keys, (hperm.map _).mem_iff]
      exact (hprepared.nodup hc.nodup).1
  | some m =>
    obtain ⟨s, e⟩ := m
    rw [Searcher.successive_of_some _ hfind] at hdrop hget
    rw [hfind] at hperm
    have hlt : n % (((key.searcher engine).successive 0).length + 1) <
        ((key.searcher engine).successive 0).length := by
      by_contra hno
      rw [List.drop_eq_nil_of_le (Nat.not_lt.1 hno)] at hdrop
      cases hdrop
    refine ⟨?_, .inr ⟨?_, _, hperm.mem_iff.2 List.mem_cons_self, rfl, ?_⟩⟩
    · rw [Engine.found_of_some hfind, ← hget, RegexFound.match?, if_neg (by dsimp only; omega)]
      rfl
    · rw [succ_mod_of_lt hlt]
      exact Nat.succ_ne_zero _
    · rw [succ_mod_of_lt hlt, ← List.drop_drop, hdrop, Int.toNat_natCast]
      rfl

/-! ### The law -/

theorem answers_cons (key : RegexKey) (call : MatchCall) (log : List MatchCall) :
    answers key (call :: log) =
      answers key log ++ if call.1 = key then [call.2.match?] else [] := by
  unfold answers
  rw [List.filter_cons]
  simp only [decide_eq_true_iff]
  split_ifs
  · rw [List.map_cons, List.reverse_cons]
  · rw [List.append_nil]

theorem Cached.of_call (hc : Cached log σ) (hplain : key.Plain)
    (hfew : ((key, found) :: log).length < 18446744073709551616)
    (hcall : regexHasmatch? engine σ key = some (found, σ')) : Cached ((key, found) :: log) σ' := by
  obtain ⟨found', σ'', hcall', hc'⟩ := @Cached.step engine log σ key hc hplain hfew
  obtain ⟨rfl, rfl⟩ := Prod.mk.inj (Option.some.inj (hcall.symm.trans hcall'))
  exact hc'

theorem Run.cached (hrun : Run engine log σ) (hplain : ∀ call ∈ log, call.1.Plain)
    (hfew : log.length < 18446744073709551616) : Cached log σ := by
  induction hrun with
  | fresh => exact ⟨rfl, by decide, List.nodup_nil, by simp⟩
  | call _ hcall ih =>
    have hc := ih (fun call hmem => hplain call (List.mem_cons_of_mem _ hmem)) (by
      rw [List.length_cons] at hfew
      omega)
    exact hc.of_call (hplain _ List.mem_cons_self) hfew hcall

/-- On the way from a state without a key its calls get the matches in turn, unless it is evicted. -/
theorem MatchStates.Keeps.inTurn (hkeeps : MatchStates.Keeps engine key σ₁ after σ) (hc : Cached before σ₁) (hnew : key ∉ σ₁.keys)
    (hplain : ∀ call ∈ after, call.1.Plain) (hfew : (after ++ before).length < 18446744073709551616) :
    Cached (after ++ before) σ ∧ Position engine key σ (answers key after).length ∧
      answers key after = (List.range (answers key after).length).map
        (Slp.inTurn ((key.searcher engine).successive 0)) := by
  induction hkeeps with
  | refl => exact ⟨hc, .inl ⟨Nat.zero_mod _, hnew⟩, rfl⟩
  | @call log σ σ' other found _ hcall hstays ih =>
    obtain ⟨hc, hpos, hanswers⟩ := ih (fun call hmem => hplain call (List.mem_cons_of_mem _ hmem)) (by
      rw [List.cons_append, List.length_cons] at hfew
      omega)
    have hother : other.Plain := hplain _ List.mem_cons_self
    refine ⟨hc.of_call hother hfew hcall, ?_⟩
    rw [answers_cons]
    dsimp only
    by_cases hkey : other = key
    · subst hkey
      obtain ⟨hanswer, hpos'⟩ := hpos.of_own hc hother hcall
      rw [if_pos rfl, List.length_append, List.length_singleton, List.range_succ, List.map_append,
        ← hanswers, hanswer]
      exact ⟨hpos', rfl⟩
    · rw [if_neg hkey, List.append_nil]
      exact ⟨hpos.of_other hc.nodup hcall hkey (hstays hkey), hanswers⟩

theorem Cached.evicts (hc : Cached log σ) (hcall : regexHasmatch? engine σ key = some (found, σ'))
    (hnew : key ∉ σ.keys) (hfull : σ.states.length = 16) :
    ∃ victim ∈ σ.states, (∀ state ∈ σ.states, lastUse victim.key log ≤ lastUse state.key log) ∧
      ∀ state ∈ σ.states, state ∈ σ'.states ↔ state ≠ victim := by
  obtain ⟨base, offset, hprepared, hperm⟩ := regexHasmatch?_perm hcall
  cases hprepared with
  | @own state _ hkey hown => exact absurd (List.mem_map.2 ⟨state, hown.mem_iff.2 List.mem_cons_self, hkey⟩) hnew
  | room _ hroom => exact absurd hfull hroom.ne
  | @evict victim _ _ _ hleast hvictim =>
    have hmem : victim ∈ σ.states := hvictim.mem_iff.2 List.mem_cons_self
    have hnodup := (hvictim.nodup_iff.1 (List.Nodup.of_map _ hc.nodup))
    rw [List.nodup_cons] at hnodup
    refine ⟨victim, hmem, fun state hstate => ?_, fun state hstate => ?_⟩
    · rw [← (hc.kept victim hmem).used, ← (hc.kept state hstate).used]
      exact hleast state hstate
    · -- the states after the call are the others, and perhaps one with the new key
      have hafter : state ∈ σ'.states ↔ state ∈ base := by
        rcases hperm with hperm | ⟨own, hown, hperm⟩
        · exact hperm.mem_iff
        · rw [hperm.mem_iff, List.mem_cons]
          refine or_iff_right fun heq => hnew ?_
          exact List.mem_map.2 ⟨state, hstate, by rw [heq, hown]⟩
      rw [hafter]
      constructor
      · rintro hbase rfl
        exact hnodup.1 hbase
      · intro hne
        exact (List.mem_cons.1 (hvictim.mem_iff.1 hstate)).resolve_left hne

theorem Cached.stays (hcall : regexHasmatch? engine σ key = some (found, σ'))
    (hold : key ∈ σ.keys ∨ σ.states.length < 16) (hstate : state ∈ σ.states) (hne : state.key ≠ key) :
    state ∈ σ'.states := by
  obtain ⟨base, offset, hprepared, hperm⟩ := regexHasmatch?_perm hcall
  have hbase : state ∈ base := by
    cases hprepared with
    | own hkey hown =>
      refine (List.mem_cons.1 (hown.mem_iff.1 hstate)).resolve_left ?_
      rintro rfl
      exact hne hkey
    | room => exact hstate
    | evict hnew hfull =>
      rcases hold with hmem | hroom
      · obtain ⟨own, hown, hkey⟩ := List.mem_map.1 hmem
        exact absurd hkey (hnew own hown)
      · exact absurd hfull (Nat.not_le.2 hroom)
  rcases hperm with hperm | ⟨own, -, hperm⟩
  · exact hperm.mem_iff.2 hbase
  · exact hperm.mem_iff.2 (List.mem_cons_of_mem _ hbase)

theorem Run.hasMatchLaw (hrun : Run engine log σ) (hplain : ∀ call ∈ log, call.1.Plain)
    (hfew : log.length < 18446744073709551616) : HasMatchLaw engine log σ := by
  have hc := Run.cached hrun hplain hfew
  refine ⟨hc.bounded, hc.nodup, fun state hstate => ⟨(hc.kept state hstate).nonneg, (hc.kept state hstate).le⟩,
    fun key found σ' hcall hnew hfull => hc.evicts hcall hnew hfull,
    fun key found σ' hcall hold state hstate hne => Cached.stays hcall hold hstate hne, ?_⟩
  rintro key before after σ₁ rfl hbefore hnew hkeeps
  have hbefore' := Run.cached hbefore (fun call hmem => hplain call (List.mem_append_right _ hmem)) (by
    rw [List.length_append] at hfew
    omega)
  exact (MatchStates.Keeps.inTurn hkeeps hbefore' hnew (fun call hmem => hplain call (List.mem_append_left _ hmem))
    hfew).2.2

end

/-- **Calls with plain texts and patterns, fewer than 2 ^ 64 of them, are all answered, and in the
state that is reached the closure has kept the law.** -/
theorem hasMatchLaw_of_run (engine : Bytes → Engine) (keys : List RegexKey)
    (hplain : ∀ key ∈ keys, key.Plain) (hfew : keys.length < 18446744073709551616) :
    (∃ log σ, log.map Prod.fst = keys ∧ Run engine log σ) ∧
      ∀ log σ, log.map Prod.fst = keys → Run engine log σ → HasMatchLaw engine log σ := by
  constructor
  · induction keys with
    | nil => exact ⟨[], {}, rfl, .fresh⟩
    | cons key keys ih =>
      rw [List.length_cons] at hfew
      have hrest := fun key hmem => hplain key (List.mem_cons_of_mem _ hmem)
      obtain ⟨log, σ, hkeys, hrun⟩ := ih hrest (by omega)
      have hlength : log.length = keys.length := by rw [← hkeys, List.length_map]
      have hc := Run.cached hrun (fun call hmem => hrest _ (hkeys ▸ List.mem_map_of_mem hmem)) (by omega)
      obtain ⟨found, σ', hcall, -⟩ := @Cached.step engine log σ key hc (hplain key List.mem_cons_self) (by omega)
      exact ⟨(key, found) :: log, σ', by rw [List.map_cons, hkeys], hrun.call hcall⟩
  · rintro log σ rfl hrun
    rw [List.length_map] at hfew
    exact Run.hasMatchLaw hrun (fun call hmem => hplain _ (List.mem_map_of_mem hmem)) hfew

/-- One call of `"aa" hasmatch "a"`. -/
theorem hasMatchLaw_of_run_one :
    let key : RegexKey := ⟨⟨ascii "aa", by decide⟩, ⟨ascii "a", by decide⟩⟩
    (∃ log σ, log.map Prod.fst = [key] ∧ Run literalEngine log σ) ∧
      ∀ log σ, log.map Prod.fst = [key] → Run literalEngine log σ →
        HasMatchLaw literalEngine log σ := by
  intro key
  refine hasMatchLaw_of_run literalEngine [key] (fun key hmem => ?_) (by decide)
  obtain rfl := List.mem_singleton.1 hmem
  exact ⟨by decide, by decide, by decide⟩

/-- In a text with a NUL a match is missed. -/
theorem not_hasMatchLaw_nul :
    ¬∀ (engine : Bytes → Engine) (keys : List RegexKey), keys.length < 18446744073709551616 →
      ∀ log σ, log.map Prod.fst = keys → Run engine log σ → HasMatchLaw engine log σ := by
  intro hall
  let key : RegexKey := ⟨⟨[0, 97], by decide⟩, ⟨[97], by decide⟩⟩
  have hcall : regexHasmatch? literalEngine {} key = some ({}, ⟨[], 1⟩) := rfl
  have hlaw := hall literalEngine [key] (by decide) _ _ rfl (.call .fresh hcall)
  have hanswers := hlaw.inTurn key [] [(key, {})] {} rfl .fresh (by simp [keys])
    (.call .refl hcall fun hne => absurd rfl hne)
  have hnone : answers key [(key, {})] = [none] := rfl
  have hfirst : (key.searcher literalEngine).find 0 = some (1, 2) := rfl
  rw [hnone, Searcher.successive_of_some _ hfirst] at hanswers
  have hmatch : inTurn ((1, 2) :: (key.searcher literalEngine).successive (Searcher.next 1 2)) 0 =
      some (1, 2) := by
    rw [inTurn, Nat.zero_mod]
    rfl
  rw [show (List.range [(none : Option (ℤ × ℤ))].length) = [0] from rfl, List.map_singleton, hmatch] at hanswers
  cases hanswers

end Slp
