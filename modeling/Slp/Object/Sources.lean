import Slp.Object.Gap

/-!
# What a change does to the sources of an array

An insertion reaches every array above the one it is made in (`length_live_insertInternal`).  A
removal stops at an array in which its place is past the end: it reaches the arrays in
`Reaches`, and leaves the others alone (`array?_removeInternal`).  A change touches no other object
(`SameButArrays`).
-/

namespace Slp

namespace Heap

/-- Only arrays differ, and they are arrays in both heaps. -/
structure SameButArrays (h h' : Heap) : Prop where
  length : h'.length = h.length
  objects : ∀ q, h'.get? q = h.get? q ∨ (h.array? q).isSome ∧ (h'.array? q).isSome

/-- A removal at the index `i` of the array at `r` reaches the array at `q`. -/
inductive Reaches (h : Heap) : (r : Ref) → (i : ℕ) → (q : Ref) → Prop where
  | self {r : Ref} {i : ℕ} {a : ArrayObj} (ha : h.array? r = some a) (hi : i < a.count) :
      Reaches h r i r
  | source {r s q : Ref} {i : ℕ} {a : ArrayObj} (ha : h.array? r = some a) (hi : i < a.count)
      (hs : a.viewSource = some s) (hrest : Reaches h s (a.viewOffset + i) q) : Reaches h r i q

section Objects

variable {h h' h'' : Heap} {r s q : Ref} {a b : ArrayObj} {v : Value}

theorem SameButArrays.refl (h : Heap) : SameButArrays h h := ⟨rfl, fun _ => .inl rfl⟩

theorem SameButArrays.trans (hs : SameButArrays h h') (hs' : SameButArrays h' h'') :
    SameButArrays h h'' := by
  refine ⟨hs'.length.trans hs.length, fun q => ?_⟩
  rcases hs.objects q with heq | ⟨ha, ha'⟩
  · rcases hs'.objects q with heq' | ⟨hb, hb'⟩
    · exact .inl (heq'.trans heq)
    · refine .inr ⟨?_, hb'⟩
      rwa [array?, heq] at hb
  · rcases hs'.objects q with heq' | ⟨-, hb'⟩
    · refine .inr ⟨ha, ?_⟩
      rwa [array?, heq']
    · exact .inr ⟨ha, hb'⟩

theorem SameButArrays.set (ha : h.array? r = some a) (b : ArrayObj) :
    SameButArrays h (h.set r (.array b)) := by
  refine ⟨length_set h r _, fun q => ?_⟩
  by_cases hq : r = q
  · refine .inr ⟨by rw [← hq, ha]; rfl, ?_⟩
    rw [array?_setArray ha, if_pos hq]
    rfl
  · exact .inl (get?_set_ne hq)

theorem SameButArrays.refresh (h : Heap) (r s : Ref) : SameButArrays h (h.refresh r s) := by
  unfold Heap.refresh
  split
  · next a b ha hb => exact .set ha _
  · exact .refl h

theorem SameButArrays.insertInternal (fuel : ℕ) (h : Heap) (r : Ref) (index : ℤ) (v : Value)
    (fromChildView : Bool) : SameButArrays h (insertInternal fuel h r index v fromChildView) := by
  induction fuel generalizing h r index fromChildView with
  | zero => exact .refl h
  | succ fuel ih =>
    rw [Heap.insertInternal]
    cases ha : h.array? r with
    | none => exact .refl h
    | some a =>
      dsimp only
      have hset := SameButArrays.set ha ((a.insertOwn (min index.toNat a.count) v).flag fromChildView)
      cases a.viewSource with
      | none => exact hset
      | some s =>
        have hrest := hset.trans (ih _ s (a.viewOffset + (min index.toNat a.count : ℕ)) true)
        cases fromChildView with
        | true => exact hrest
        | false => exact hrest.trans (.refresh _ r s)

theorem SameButArrays.removeInternal (fuel : ℕ) (h : Heap) (r : Ref) (index : ℤ)
    (fromChildView : Bool) : SameButArrays h (removeInternal fuel h r index fromChildView) := by
  induction fuel generalizing h r index fromChildView with
  | zero => exact .refl h
  | succ fuel ih =>
    rw [Heap.removeInternal]
    cases ha : h.array? r with
    | none => exact .refl h
    | some a =>
      dsimp only
      by_cases hout : index < 0 ∨ index ≥ a.count
      · rw [if_pos hout]
        exact .refl h
      · rw [if_neg hout]
        have hset := SameButArrays.set ha ((a.removeOwn index.toNat).flag fromChildView)
        cases a.viewSource with
        | none => exact hset
        | some s =>
          have hrest := hset.trans (ih _ s (a.viewOffset + index) true)
          cases fromChildView with
          | true => exact hrest
          | false => exact hrest.trans (.refresh _ r s)

/-- An object that is no array is what it was. -/
theorem SameButArrays.get? (hs : SameButArrays h h') (q : Ref) :
    h'.get? q = h.get? q ∨ ∃ a b, h.get? q = some (.array a) ∧ h'.get? q = some (.array b) := by
  rcases hs.objects q with heq | ⟨ha, hb⟩
  · exact .inl heq
  · obtain ⟨a, ha⟩ := Option.isSome_iff_exists.1 ha
    obtain ⟨b, hb⟩ := Option.isSome_iff_exists.1 hb
    exact .inr ⟨a, b, get?_of_array? ha, get?_of_array? hb⟩

theorem SameButArrays.dereferenceValue (hs : SameButArrays h h') (v : Value) :
    h'.dereferenceValue v = h.dereferenceValue v := by
  have hloop : ∀ fuel v, h'.derefLoop fuel v = h.derefLoop fuel v := by
    intro fuel
    induction fuel with
    | zero => intro v; rfl
    | succ fuel ih =>
      rintro (_ | _ | _ | q)
      · rfl
      · rfl
      · rfl
      · rw [derefLoop, derefLoop]
        rcases hs.get? q with heq | ⟨a, b, ha, hb⟩
        · rw [heq]
          simp only [ih]
        · rw [ha, hb]
  rw [Heap.dereferenceValue, Heap.dereferenceValue, hs.length, hloop]

theorem SameButArrays.unwrapTaint (hs : SameButArrays h h') (v : Value) :
    h'.unwrapTaint v = h.unwrapTaint v := by
  have hloop : ∀ fuel v, h'.unwrapLoop fuel v = h.unwrapLoop fuel v := by
    intro fuel
    induction fuel with
    | zero => intro v; rfl
    | succ fuel ih =>
      rintro (_ | _ | _ | q)
      · rfl
      · rfl
      · rfl
      · rw [unwrapLoop, unwrapLoop]
        rcases hs.get? q with heq | ⟨a, b, ha, hb⟩
        · rw [heq]
          simp only [ih]
        · rw [ha, hb]
  rw [Heap.unwrapTaint, Heap.unwrapTaint, hs.length, hloop]

end Objects

/-! ### Insertions and removals -/

section Changes

variable {h h' h₁ : Heap} {r s q : Ref} {a b : ArrayObj} {v : Value} {fromChildView : Bool}
  {items : List Value} {i : ℕ}

/-- The array at `r` has got the elements `items`, and the other arrays are what they were. -/
structure Replaced (h h₁ : Heap) (r : Ref) (items : List Value) : Prop where
  ordered : Ordered h₁
  sized : AllSized h₁
  sources : h₁.IsSource = h.IsSource
  self : h₁.live r = items
  others : ∀ q, r ≠ q → h₁.array? q = h.array? q

theorem replaced_set (hord : Ordered h) (hz : AllSized h) (ha : h.array? r = some a)
    (hown : Own a b) (hb : Rewritten a b items false) (fromChildView : Bool) :
    Replaced h (h.set r (.array (b.flag fromChildView))) r items := by
  have hset := array?_setArray ha (b.flag fromChildView)
  have hkept := (own_flag hown fromChildView).toKept
  have hflag : Rewritten a (b.flag fromChildView) items fromChildView := rewritten_flag hb
  refine ⟨hord.set ha hkept hset, hz.set hflag.sized hset, isSource_set ha hkept hset, ?_,
    fun q hq => (hset q).trans (if_neg hq)⟩
  rw [live_eq ((hset r).trans (if_pos rfl)), hflag.live]

theorem Replaced.live (hr : Replaced h h₁ r items) (hq : r ≠ q) : h₁.live q = h.live q := by
  rw [Heap.live, hr.others q hq]
  rfl

theorem Replaced.above (hr : Replaced h h₁ r items) : h₁.Above = h.Above := by
  rw [Above, hr.sources]
  rfl

/-- What was done to the source of the array at `r` leaves that alone. -/
theorem Effect.live_self (he : Effect h h' s fromChildView) (hord : Ordered h) (hlt : s < r) :
    h'.live r = h.live r := by
  have hapart := he.apart r fun habove => Nat.not_le.2 hlt (habove.le hord)
  rw [Heap.live, hapart]
  rfl

theorem live_ite_refresh (h : Heap) (r s q : Ref) (fromChildView : Bool) :
    (if fromChildView then h else h.refresh r s).live q = h.live q := by
  cases fromChildView with
  | true => rfl
  | false => exact live_refresh h r s q

/-- An array above another one is that, or above its source. -/
theorem Above.cases (hq : h.Above r q) (ha : h.array? r = some a) :
    q = r ∨ ∃ s, a.viewSource = some s ∧ h.Above s q := by
  rcases Relation.ReflTransGen.cases_head hq with rfl | ⟨s, ⟨x, hx, hs⟩, hrest⟩
  · exact .inl rfl
  · obtain rfl := Option.some.inj (ha.symm.trans hx)
    exact .inr ⟨s, hs, hrest⟩

/-- An insertion makes each array above the one it is made in longer. -/
theorem length_live_insertInternal (hord : Ordered h) (hz : AllSized h) (hr : (h.array? r).isSome)
    (hq : h.Above r q) {fuel : ℕ} (hfuel : r < fuel) (index : ℤ) (v : Value)
    (fromChildView : Bool) :
    ((insertInternal fuel h r index v fromChildView).live q).length = (h.live q).length + 1 := by
  induction fuel generalizing h r index fromChildView with
  | zero => exact absurd hfuel (Nat.not_lt_zero r)
  | succ fuel ih =>
    obtain ⟨a, ha⟩ := Option.isSome_iff_exists.1 hr
    rw [insertInternal, ha]
    dsimp only
    have hmin := min_le_right index.toNat a.count
    generalize min index.toNat a.count = i at hmin ⊢
    have hstep := replaced_set hord hz ha (own_insertOwn a i v)
      (rewritten_insertOwn (hz r a ha) hmin v) fromChildView
    have hself : (a.live.take i ++ [v] ++ a.live.drop i).length = (h.live r).length + 1 := by
      rw [live_eq ha, List.length_append, List.length_append, List.length_take, List.length_drop,
        List.length_singleton]
      omega
    generalize h.set r (.array ((a.insertOwn i v).flag fromChildView)) = h₁ at hstep ⊢
    cases hview : a.viewSource with
    | none =>
      dsimp only
      rcases hq.cases ha with rfl | ⟨s, hs, -⟩
      · rw [hstep.self, hself]
      · rw [hview] at hs
        cases hs
    | some s =>
      dsimp only
      rw [live_ite_refresh]
      have hlt := hord.older r s ⟨a, ha, hview⟩
      have heffect := insertInternal_effect hstep.ordered fuel s (a.viewOffset + (i : ℕ)) v true
      rcases hq.cases ha with rfl | ⟨x, hx, hxq⟩
      · rw [heffect.live_self hstep.ordered hlt, hstep.self, hself]
      · obtain rfl := Option.some.inj (hview.symm.trans hx)
        have hne : r ≠ q := Nat.ne_of_gt (Nat.lt_of_le_of_lt (Above.le hord hxq) hlt)
        have hs₁ : (h₁.array? s).isSome := by
          rw [hstep.others s (Nat.ne_of_gt hlt)]
          exact hord.present r s ⟨a, ha, hview⟩
        rw [ih hstep.ordered hstep.sized hs₁ (by rw [hstep.above]; exact hxq)
          (Nat.lt_of_lt_of_le hlt (Nat.le_of_lt_succ hfuel)), hstep.live hne]

/-- A removal takes the element out. -/
theorem live_removeInternal (hord : Ordered h) (hz : AllSized h) (hi : i < (h.live r).length)
    (fuel : ℕ) (fromChildView : Bool) :
    (removeInternal (fuel + 1) h r i fromChildView).live r = (h.live r).eraseIdx i := by
  cases ha : h.array? r with
  | none =>
    rw [Heap.live, ha] at hi
    cases hi
  | some a =>
    rw [length_live hz ha] at hi
    have hstep := replaced_set hord hz ha (own_removeOwn a i) (rewritten_removeOwn (hz r a ha) hi)
      fromChildView
    rw [removeInternal, ha]
    dsimp only
    rw [if_neg (by omega), Int.toNat_natCast, live_eq ha]
    generalize h.set r (.array ((a.removeOwn i).flag fromChildView)) = h₁ at hstep ⊢
    cases hview : a.viewSource with
    | none => exact hstep.self
    | some s =>
      have heffect := removeInternal_effect hstep.ordered fuel s (a.viewOffset + i) true
      rw [← hstep.self, ← heffect.live_self hstep.ordered (hord.older r s ⟨a, ha, hview⟩)]
      exact live_ite_refresh _ r s r fromChildView

/-- The arrays have become shorter. -/
def Shrinks (h h' : Heap) : Prop :=
  ∀ p x, h'.array? p = some x → ∃ y, h.array? p = some y ∧ x.count ≤ y.count ∧
    x.viewSource = y.viewSource ∧ x.viewOffset = y.viewOffset

theorem Shrinks.refl (h : Heap) : Shrinks h h := fun _ x hx => ⟨x, hx, Nat.le_refl _, rfl, rfl⟩

theorem Shrinks.trans {h'' : Heap} (hs : Shrinks h h') (hs' : Shrinks h' h'') : Shrinks h h'' := by
  intro p x hx
  obtain ⟨y, hy, hcount, hsource, hoffset⟩ := hs' p x hx
  obtain ⟨z, hz, hcount', hsource', hoffset'⟩ := hs p y hy
  exact ⟨z, hz, hcount.trans hcount', hsource.trans hsource', hoffset.trans hoffset'⟩

theorem Shrinks.set (ha : h.array? r = some a) (hcount : b.count ≤ a.count)
    (hsource : b.viewSource = a.viewSource) (hoffset : b.viewOffset = a.viewOffset) :
    Shrinks h (h.set r (.array b)) := by
  intro p x hx
  rw [array?_setArray ha] at hx
  split_ifs at hx with hp
  · obtain rfl := Option.some.inj hx
    exact ⟨a, hp ▸ ha, hcount, hsource, hoffset⟩
  · exact ⟨x, hx, Nat.le_refl _, rfl, rfl⟩

theorem Shrinks.refresh (h : Heap) (r s : Ref) : Shrinks h (h.refresh r s) := by
  unfold Heap.refresh
  split
  · next a b ha hb =>
    exact .set (b := { a with viewSourceVersion := b.mutationVersion }) ha (Nat.le_refl _) rfl rfl
  · exact .refl h

theorem shrinks_removeOwn (ha : h.array? r = some a) (i : ℕ) (fromChildView : Bool) :
    Shrinks h (h.set r (.array ((a.removeOwn i).flag fromChildView))) := by
  refine .set ha ?_ (own_flag (own_removeOwn a i) fromChildView).viewSource
    (own_flag (own_removeOwn a i) fromChildView).viewOffset
  unfold ArrayObj.flag
  split_ifs <;> exact Nat.sub_le _ _

theorem Shrinks.removeInternal (fuel : ℕ) (h : Heap) (r : Ref) (index : ℤ) (fromChildView : Bool) :
    Shrinks h (removeInternal fuel h r index fromChildView) := by
  induction fuel generalizing h r index fromChildView with
  | zero => exact .refl h
  | succ fuel ih =>
    rw [Heap.removeInternal]
    cases ha : h.array? r with
    | none => exact .refl h
    | some a =>
      dsimp only
      by_cases hout : index < 0 ∨ index ≥ a.count
      · rw [if_pos hout]
        exact .refl h
      · rw [if_neg hout]
        have hset := shrinks_removeOwn ha index.toNat fromChildView
        cases a.viewSource with
        | none => exact hset
        | some s =>
          have hrest := hset.trans (ih _ s (a.viewOffset + index) true)
          cases fromChildView with
          | true => exact hrest
          | false => exact hrest.trans (.refresh _ r s)

/-- What a removal reaches in shorter arrays, an earlier one reaches in longer arrays. -/
theorem Reaches.mono {i' : ℕ} (hreach : Reaches h' r i q) (hi : i' ≤ i) (hs : Shrinks h h') :
    Reaches h r i' q := by
  induction hreach generalizing i' with
  | self ha hlt =>
    obtain ⟨y, hy, hcount, -⟩ := hs _ _ ha
    exact .self hy (by omega)
  | source ha hlt hsource _ ih =>
    obtain ⟨y, hy, hcount, hsame, hoffset⟩ := hs _ _ ha
    refine .source hy (by omega) (hsame.symm.trans hsource) (ih ?_)
    rw [← hoffset]
    omega

/-- What is reached depends on the array and those above it. -/
theorem Reaches.congr (hreach : Reaches h r i q) (hord : Ordered h)
    (hsame : ∀ p, p ≤ r → h'.array? p = h.array? p) : Reaches h' r i q := by
  induction hreach with
  | self ha hlt => exact .self ((hsame _ (Nat.le_refl _)).trans ha) hlt
  | source ha hlt hsource _ ih =>
    refine .source ((hsame _ (Nat.le_refl _)).trans ha) hlt hsource (ih fun p hp => hsame p ?_)
    exact hp.trans (Nat.le_of_lt (hord.older _ _ ⟨_, ha, hsource⟩))

theorem Reaches.above (hreach : Reaches h r i q) : h.Above r q := by
  induction hreach with
  | self ha hlt => exact above_self h _
  | source ha hlt hsource _ ih => exact above_of_source ⟨_, ha, hsource⟩ ih

/-- An array that a removal does not reach keeps its elements. -/
theorem live_removeInternal_of_not (hord : Ordered h) (hz : AllSized h) (hno : ¬Reaches h r i q)
    (fuel : ℕ) (fromChildView : Bool) :
    (removeInternal fuel h r i fromChildView).live q = h.live q := by
  induction fuel generalizing h r i fromChildView with
  | zero => rfl
  | succ fuel ih =>
    rw [removeInternal]
    cases ha : h.array? r with
    | none => rfl
    | some a =>
      dsimp only
      by_cases hout : (i : ℤ) < 0 ∨ (i : ℤ) ≥ a.count
      · rw [if_pos hout]
      · have hi : i < a.count := by omega
        have hne : r ≠ q := by
          rintro rfl
          exact hno (.self ha hi)
        rw [if_neg hout, Int.toNat_natCast]
        have hstep := replaced_set hord hz ha (own_removeOwn a i) (rewritten_removeOwn (hz r a ha) hi)
          fromChildView
        have hshrinks := shrinks_removeOwn ha i fromChildView
        generalize h.set r (.array ((a.removeOwn i).flag fromChildView)) = h₁ at hstep hshrinks ⊢
        cases hview : a.viewSource with
        | none => exact hstep.live hne
        | some s =>
          dsimp only
          rw [live_ite_refresh]
          have hrest : ¬Reaches h₁ s (a.viewOffset + i) q := fun hreach =>
            hno (.source ha hi hview (hreach.mono (Nat.le_refl _) hshrinks))
          exact (ih hstep.ordered hstep.sized hrest true).trans (hstep.live hne)

/-- An array that a removal reaches becomes shorter. -/
theorem length_live_removeInternal (hord : Ordered h) (hz : AllSized h) (hreach : Reaches h r i q)
    {fuel : ℕ} (hfuel : r < fuel) (fromChildView : Bool) :
    ((removeInternal fuel h r i fromChildView).live q).length + 1 = (h.live q).length := by
  induction fuel generalizing h r i fromChildView with
  | zero => exact absurd hfuel (Nat.not_lt_zero r)
  | succ fuel ih =>
    cases hreach with
    | self ha hi =>
      have hi' := hi
      rw [← length_live hz ha] at hi'
      rw [live_removeInternal hord hz hi', List.length_eraseIdx_of_lt hi']
      omega
    | @source _ s _ _ a ha hi hview hrest =>
      have hlt := hord.older r s ⟨a, ha, hview⟩
      have hne : r ≠ q := Nat.ne_of_gt (Nat.lt_of_le_of_lt (hrest.above.le hord) hlt)
      have hstep := replaced_set hord hz ha (own_removeOwn a i) (rewritten_removeOwn (hz r a ha) hi)
        fromChildView
      rw [removeInternal, ha]
      dsimp only
      rw [if_neg (by omega), Int.toNat_natCast, hview]
      dsimp only
      rw [live_ite_refresh]
      have hrest₁ := hrest.congr hord fun p hp =>
        hstep.others p (Nat.ne_of_gt (Nat.lt_of_le_of_lt hp hlt))
      rw [← hstep.live hne]
      exact ih hstep.ordered hstep.sized hrest₁
        (Nat.lt_of_lt_of_le hlt (Nat.le_of_lt_succ hfuel)) true

end Changes

end Heap

end Slp
