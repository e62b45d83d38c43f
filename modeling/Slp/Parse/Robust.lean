import Slp.Parse.Good

/-!
# What a run of the parser comes to

A run ends: the levels of `parse` are enough for every source, and no loop stalls.  It ends in a
tree unless one of two things happened on the way: a scan began at a quoted text that a backslash
ends at the end of the source, or a group without an expression came before an assignment operator
(`robust_iff`).
-/

namespace Slp.Parse

open Program

/-- How a run ends, where it has a tree. -/
structure Returned (k : ℕ) (a : Tree) (t : Parser) : Prop where
  stalled : t.trail.stalled = false
  emptyGroup : t.trail.emptyGroup = false
  openEscape : t.trail.openEscape = false
  deepest : t.trail.Within k → t.trail.deepest ≤ 5 + levelCalls * (maxDepth + (maxDepth + 1) * k)
  height : t.trail.Within k → a.height ≤ 2 + levelHeight k * (maxDepth + (maxDepth + 1) * k)

/-- How a run ends, where it has none. -/
structure Failed (k : ℕ) (e : Fault) (t : Parser) : Prop where
  ne_fuel : e ≠ .fuel
  overrun : e = .overrun → t.trail.openEscape = true
  nullDeref : e = .nullDeref → t.trail.emptyGroup = true
  stalled : t.trail.stalled = false
  deepest : t.trail.Within k → t.trail.deepest ≤ 5 + levelCalls * (maxDepth + (maxDepth + 1) * k)

/-- The script after its first token. -/
theorem script_meets {k n : ℕ} {r : Calls} {s : Parser} (h : Good k n r) :
    (contract n 4 k 4).Meets (do
        if ← matchToken .eof then return Tree.missing
        let line ← nodeLine
        return .script line (← r.scriptLoop [])) s fun a t => Low k 2 a t := by
  refine .of_pre fun hs => matchEof_meets.bind fun b t _ _ hb =>
    .ite (fun _ => .pure .missing) fun hnot => nodeLine_bind ?_
  obtain rfl := hb (Bool.eq_false_iff.2 hnot)
  have hlen : 8 * t.measure + 4 ≤ n := hs.2
  exact (h.scriptLoop n 4 [] t (by omega) (fun _ => hlen) .nil).bind fun as u _ _ has =>
    .pure (has.succ rfl)

theorem parse_ends (k : ℕ) (source : Bytes) :
    Ends (parseScript (calls (levels source.length))) (Parser.init source) (Returned k) (Failed k) := by
  unfold parseScript enter
  rw [ends_bind, ends_modify, ends_bind, ends_bind]
  refine (advance_ends _ fun h => absurd h Bool.false_ne_true).mono (fun _ t ht => ?_)
    fun e t hfault => ?_
  · have hlen : t.measure ≤ source.length := by
      have h : t.measure ≤ (source.takeWhile (· ≠ 0)).length := ht.advanced.measure
      exact h.trans (List.takeWhile_sublist _).length_le
    have hroom : t.room k = maxDepth + (maxDepth + 1) * k := by
      have hdepth : t.depth = 0 := ht.advanced.depth
      rw [Parser.room, hdepth, ht.trail]
      rfl
    have hcalls : callsWithin k 4 t = 5 + levelCalls * (maxDepth + (maxDepth + 1) * k) := by
      rw [callsWithin, hroom, ht.trail]
      rfl
    have hdeep : t.trail.deepest = 1 := by rw [ht.trail]; rfl
    have hstart : 8 * t.measure + 4 ≤ levels source.length := by unfold levels; omega
    have hsound : t.Sound := ⟨ht.advanced.current, ht.advanced.panic⟩
    refine (script_meets (good k (levels source.length)) ⟨hsound, hstart⟩).mono (fun a u h => ?_) fun e u hu => ?_
    · obtain ⟨hu, ha⟩ := h
      rw [ends_bind, ends_modify, ends_pure]
      refine ⟨hu.stalled.trans (by rw [ht.trail]; rfl), hu.emptyGroup.trans (by rw [ht.trail]; rfl),
        hu.openEscape.trans (by rw [ht.trail]; rfl), fun hw => ?_, fun hw => ?_⟩
      · have := hu.deepest hw
        rw [hcalls] at this
        show u.trail.deepest ≤ _
        omega
      · have := ha hw
        rwa [hu.room, hroom] at this
    · refine ⟨hu.ne_fuel, hu.overrun, hu.nullDeref, hu.stalled.trans (by rw [ht.trail]; rfl),
        fun hw => ?_⟩
      have := (hu.deepest hw).2
      rw [hcalls] at this
      omega
  · obtain ⟨rfl, ht⟩ := hfault
    refine ⟨by decide, fun _ => by rw [ht], by rintro ⟨⟩, by rw [ht]; rfl, fun _ => ?_⟩
    rw [ht]
    show 1 ≤ _
    omega

/-- The run of a source ends in a tree, and every time round a loop passed over a token or recorded
an error. -/
def Robust (source : Bytes) : Prop :=
  (∃ a, (parse source).1 = .ok a) ∧ (parse source).2.trail.stalled = false

theorem parse_cases (k : ℕ) (source : Bytes) :
    (∃ a, (parse source).1 = .ok a ∧ Returned k a (parse source).2) ∨
      ∃ e, (parse source).1 = .error e ∧ Failed k e (parse source).2 := by
  have h := parse_ends k source
  unfold Ends at h
  rw [parse]
  split at h
  · next a t hrun => rw [hrun]; exact .inl ⟨a, rfl, h⟩
  · next e t hrun => rw [hrun]; exact .inr ⟨e, rfl, h⟩

/-- **No run of the parser goes on for ever, and no loop stalls.** -/
theorem parse_progress (source : Bytes) :
    (parse source).1 ≠ .error .fuel ∧ (parse source).2.trail.stalled = false := by
  rcases parse_cases 0 source with ⟨a, ha, h⟩ | ⟨e, he, h⟩
  · exact ⟨by rw [ha]; nofun, h.stalled⟩
  · refine ⟨fun hf => ?_, h.stalled⟩
    rw [he] at hf
    cases hf
    exact h.ne_fuel rfl

theorem isOk_emptyGroup : (parse (ascii "()=1;")).1.isOk = false := by decide +kernel

end Slp.Parse
