import Mathlib.Data.Set.Basic
import Slp.Object.View

/-!
# Stale views

`ViewRun` follows a heap of arrays through the making of views and changes of arrays, together with
the set of the stale views: a change through an array makes a view stale if it changes an array the
view was made from, directly or through other views, and was not made through the view or through
one made from it.

`slp_obj_array_view_is_valid` looks only at the source of the view, and a change of a view makes it
note the version of its source, so that not every stale view is found.  It is as long as each
change is `Tracked` (`not_valid_of_stale`).
-/

namespace Slp

namespace Heap

/-- The view at `v` is made stale by a change through the array at `r`. -/
def Outdated (h h' : Heap) (r v : Ref) : Prop :=
  ¬h.Above r v ∧ ∃ s p, h.IsSource v s ∧ h.Above s p ∧ Mutated h h' p

/-- The heaps reached by making views and by the changes that `ok` admits, and the stale views. -/
inductive ViewRun (ok : Heap → Ref → Prop) : Heap → Set Ref → Prop where
  | start (h : Heap) (hroots : ∀ q s, ¬h.IsSource q s) : ViewRun ok h ∅
  | sublist {h h' : Heap} {stale : Set Ref} {r v : Ref} (start : ℤ) (stop : Option ℤ)
      (hrun : ViewRun ok h stale) (hsublist : h.sublist r start stop = some (h', v)) :
      ViewRun ok h' stale
  | change {h : Heap} {stale : Set Ref} (r : Ref) (op : ArrayOp) (hrun : ViewRun ok h stale)
      (hok : ok h r) : ViewRun ok (h.change r op) {v | v ∈ stale ∨ Outdated h (h.change r op) r v}

/-- The array at `r` may be changed: each valid view that the change goes past has its source among
the arrays that are changed, and if the array is a view it is valid, or flagged. -/
structure Tracked (h : Heap) (r : Ref) : Prop where
  near : ∀ v s, h.IsSource v s → ¬h.Above r v → h.viewIsValid v = true → h.Above r s
  current : ∀ a s, h.array? r = some a → a.viewSource = some s →
    h.viewIsValid r = true ∨ a.viewInvalid = true

/-- What holds of the arrays in a run. -/
structure Versions (h : Heap) : Prop where
  ordered : Ordered h
  noted : ∀ v a s b, h.array? v = some a → a.viewSource = some s → h.array? s = some b →
    a.viewSourceVersion ≤ b.mutationVersion

section Validity

variable {h h' : Heap} {r s v : Ref} {a b : ArrayObj} {fromChildView : Bool}

theorem viewIsValid_iff (ha : h.array? v = some a) (hs : a.viewSource = some s)
    (hb : h.array? s = some b) :
    h.viewIsValid v = true ↔ a.viewInvalid = false ∧ b.mutationVersion = a.viewSourceVersion := by
  rw [viewIsValid, ha]
  dsimp only
  rw [hs]
  dsimp only
  rw [hb]
  simp

/-- An array that is not valid is a view. -/
theorem exists_of_not_valid (hord : Ordered h) (hv : h.viewIsValid v = false) :
    ∃ a s b, h.array? v = some a ∧ a.viewSource = some s ∧ h.array? s = some b := by
  unfold viewIsValid at hv
  split at hv
  · cases hv
  · rename_i a ha
    split at hv
    · cases hv
    · rename_i s hs
      obtain ⟨b, hb⟩ := Option.isSome_iff_exists.1 (hord.present v s ⟨a, ha, hs⟩)
      exact ⟨a, s, b, ha, hs, hb⟩

theorem not_valid_iff (ha : h.array? v = some a) (hs : a.viewSource = some s)
    (hb : h.array? s = some b) :
    h.viewIsValid v = false ↔ a.viewInvalid = true ∨ b.mutationVersion ≠ a.viewSourceVersion := by
  rw [← Bool.not_eq_true, viewIsValid_iff ha hs hb]
  cases a.viewInvalid <;> simp

/-- Versions only grow: a view that is not valid stays so, unless it is changed itself and has no
flag. -/
theorem Effect.not_valid (he : Effect h h' r fromChildView) (hver : Versions h)
    (hv : h.viewIsValid v = false)
    (hother : v ≠ r ∨ ∃ a, h.array? v = some a ∧ a.viewInvalid = true) :
    h'.viewIsValid v = false := by
  obtain ⟨a, s, b, ha, hs, hb⟩ := exists_of_not_valid hver.ordered hv
  obtain ⟨a', ha', hka, hva⟩ := he.kept v a ha
  obtain ⟨b', hb', hkb, -⟩ := he.kept s b hb
  rw [not_valid_iff ha' (hka.viewSource.trans hs) hb']
  have hflag : a.viewInvalid = true → a'.viewInvalid = true := hka.viewInvalid
  rcases hother with hne | ⟨x, hx, hxi⟩
  · rcases (not_valid_iff ha hs hb).1 hv with hi | hne'
    · exact .inl (hflag hi)
    · -- the source was past the version the view knows, and still is
      have hle := hver.noted v a s b ha hs hb
      have hgrow := hkb.mutationVersion
      rw [hva (.inl hne)]
      exact .inr (by omega)
  · obtain rfl := Option.some.inj (hx.symm.trans ha)
    exact .inl (hflag hxi)

/-- A change keeps what is known of versions. -/
theorem Effect.versions (he : Effect h h' r fromChildView) (hver : Versions h) : Versions h' where
  ordered := he.ordered hver.ordered
  noted v a' s b' ha' hs' hb' := by
    have hsource : h.IsSource v s := by
      rw [← he.isSource_eq]
      exact ⟨a', ha', hs'⟩
    obtain ⟨a, ha, hs⟩ := hsource
    obtain ⟨b, hb⟩ := Option.isSome_iff_exists.1 (hver.ordered.present v s ⟨a, ha, hs⟩)
    obtain ⟨x, hx, hkx, hvx⟩ := he.kept v a ha
    obtain rfl := Option.some.inj (hx.symm.trans ha')
    obtain ⟨y, hy, hky, -⟩ := he.kept s b hb
    obtain rfl := Option.some.inj (hy.symm.trans hb')
    have hle := hver.noted v a s b ha hs hb
    have hgrow := hky.mutationVersion
    by_cases hvr : v = r
    · subst hvr
      rcases he.noted s ⟨a, ha, hs⟩ with hsame | hchild | ⟨a₁, b₁, ha₁, hb₁, heq⟩
      · obtain rfl := Option.some.inj (ha'.symm.trans (hsame.trans ha))
        omega
      · rw [hvx (.inr hchild)]
        omega
      · obtain rfl := Option.some.inj (ha₁.symm.trans ha')
        obtain rfl := Option.some.inj (hb₁.symm.trans hb')
        exact heq.le
    · rw [hvx (.inl hvr)]
      omega

/-- A view that a tracked change makes stale is not valid after it. -/
theorem Effect.outdated (he : Effect h h' r fromChildView) (hver : Versions h)
    (htracked : Tracked h r) (hout : Outdated h h' r v) : h'.viewIsValid v = false := by
  obtain ⟨hpast, s, p, ⟨a, ha, hs⟩, hsp, hmut⟩ := hout
  have hvr : v ≠ r := by
    rintro rfl
    exact hpast (above_self h v)
  cases hvalid : h.viewIsValid v with
  | false => exact he.not_valid hver hvalid (.inl hvr)
  | true =>
    have hrs := htracked.near v s ⟨a, ha, hs⟩ hpast hvalid
    -- the change reached an array above the source, and so the source
    have hreached : ∀ q, h.Above s q → Mutated h h' q → Mutated h h' s := by
      intro q hq
      induction hq with
      | refl => exact id
      | tail hsq hqp ih => exact fun hp => ih (he.chain _ _ hqp (hrs.trans hsq) hp)
    obtain ⟨b, b', hb, hb', hlt⟩ := hreached p hsp hmut
    obtain ⟨a', ha', hka, hva⟩ := he.kept v a ha
    rw [not_valid_iff ha' (hka.viewSource.trans hs) hb', hva (.inl hvr)]
    have heq := ((viewIsValid_iff ha hs hb).1 hvalid).2
    exact .inr (by omega)

end Validity

section Runs

variable {h h' : Heap} {stale : Set Ref} {r v : Ref}

theorem array?_cons (r : Ref) (a : ArrayObj) (h : Heap) (q : Ref) :
    Heap.array? ({ ref := r, obj := .array a } :: h) q = if r = q then some a else h.array? q := by
  unfold Heap.array?
  rw [get?_cons]
  split_ifs <;> rfl

theorem array?_ne_freshRef {q : Ref} {a : ArrayObj} (ha : h.array? q = some a) : h.freshRef ≠ q :=
  (ne_freshRef (get?_of_array? ha)).symm

/-- The heap after a view was made. -/
theorem sublist_cases {start : ℤ} {stop : Option ℤ} (hsub : h.sublist r start stop = some (h', v)) :
    ∃ a i j, h.array? r = some a ∧ v = h.freshRef ∧ i ≤ j ∧ j ≤ a.count ∧
      h' = { ref := h.freshRef, obj := .array (newView a r i j) } :: h := by
  unfold sublist at hsub
  cases ha : h.array? r with
  | none =>
    rw [ha] at hsub
    cases hsub
  | some a =>
    rw [ha] at hsub
    dsimp only at hsub
    generalize (if start < 0 then start + a.count else start) = i at hsub
    generalize (if stop.getD a.count < 0 then _ else _ : ℤ) = j at hsub
    by_cases hout : i > min j a.count ∨ i < 0 ∨ i > a.count ∨ min j a.count < 0
    · rw [if_pos hout] at hsub
      cases hsub
    · rw [if_neg hout] at hsub
      obtain ⟨rfl, rfl⟩ := Prod.mk.inj (Option.some.inj hsub)
      exact ⟨a, i.toNat, (min j a.count).toNat, rfl, rfl, by omega, by omega, rfl⟩

/-- A new view is the only array that changes. -/
theorem array?_sublist {start : ℤ} {stop : Option ℤ}
    (hsub : h.sublist r start stop = some (h', v)) : ∀ q a, h.array? q = some a →
    h'.array? q = some a := by
  obtain ⟨b, i, j, -, -, -, -, rfl⟩ := sublist_cases hsub
  intro q a ha
  rw [array?_cons, if_neg (array?_ne_freshRef ha)]
  exact ha

/-- Making a view keeps what is known of versions. -/
theorem sublist_versions {start : ℤ} {stop : Option ℤ} (hver : Versions h)
    (hsub : h.sublist r start stop = some (h', v)) : Versions h' := by
  have hold := array?_sublist hsub
  obtain ⟨b, i, j, hb, -, -, -, rfl⟩ := sublist_cases hsub
  have hlt : r < h.freshRef := by
    obtain ⟨c, hc, hcr, -⟩ := exists_mem_of_get? (get?_of_array? hb)
    exact hcr ▸ lt_freshRef hc
  refine ⟨⟨?_, ?_⟩, ?_⟩
  · rintro q s ⟨x, hx, hs⟩
    rw [array?_cons] at hx
    split_ifs at hx with hq
    · subst hq
      obtain rfl := Option.some.inj hx
      obtain rfl := Option.some.inj hs
      exact hlt
    · exact hver.ordered.older q s ⟨x, hx, hs⟩
  · rintro q s ⟨x, hx, hs⟩
    rw [array?_cons] at hx
    split_ifs at hx with hq
    · obtain rfl := Option.some.inj hx
      obtain rfl := Option.some.inj hs
      rw [hold r b hb]
      rfl
    · obtain ⟨y, hy⟩ := Option.isSome_iff_exists.1 (hver.ordered.present q s ⟨x, hx, hs⟩)
      rw [hold s y hy]
      rfl
  · intro q x s y hx hs hy
    rw [array?_cons] at hx
    split_ifs at hx with hq
    · obtain rfl := Option.some.inj hx
      obtain rfl := Option.some.inj hs
      obtain rfl := Option.some.inj (hy.symm.trans (hold r b hb))
      exact Nat.le_refl _
    · obtain ⟨z, hz⟩ := Option.isSome_iff_exists.1 (hver.ordered.present q s ⟨x, hx, hs⟩)
      obtain rfl := Option.some.inj (hy.symm.trans (hold s z hz))
      exact hver.noted q x s y hx hs hz

theorem sublist_not_valid {start : ℤ} {stop : Option ℤ} {q : Ref} (hver : Versions h)
    (hsub : h.sublist r start stop = some (h', v)) (hq : h.viewIsValid q = false) :
    h'.viewIsValid q = false := by
  obtain ⟨a, s, b, ha, hs, hb⟩ := exists_of_not_valid hver.ordered hq
  rw [not_valid_iff (array?_sublist hsub q a ha) hs (array?_sublist hsub s b hb)]
  exact (not_valid_iff ha hs hb).1 hq

/-- In a run of tracked changes the versions are kept, and no stale view is valid. -/
theorem ViewRun.versions (hrun : ViewRun Tracked h stale) :
    Versions h ∧ ∀ v ∈ stale, h.viewIsValid v = false := by
  induction hrun with
  | start h hroots =>
    refine ⟨⟨⟨fun q s hs => absurd hs (hroots q s), fun q s hs => absurd hs (hroots q s)⟩, ?_⟩, ?_⟩
    · intro q a s b ha hs
      exact absurd ⟨a, ha, hs⟩ (hroots q s)
    · intro v hv
      cases hv
  | sublist start stop _ hsub ih =>
    obtain ⟨hver, hstale⟩ := ih
    exact ⟨sublist_versions hver hsub, fun q hq => sublist_not_valid hver hsub (hstale q hq)⟩
  | @change h stale r op _ hok ih =>
    obtain ⟨hver, hstale⟩ := ih
    have heffect := change_effect hver.ordered r op
    refine ⟨heffect.versions hver, ?_⟩
    rintro v (hv | hout)
    · have hinvalid := hstale v hv
      refine heffect.not_valid hver hinvalid ?_
      by_cases hvr : v = r
      · -- a stale view that is changed itself has a flag
        subst hvr
        obtain ⟨a, s, -, ha, hs, -⟩ := exists_of_not_valid hver.ordered hinvalid
        rcases hok.current a s ha hs with hvalid | hflag
        · rw [hinvalid] at hvalid
          cases hvalid
        · exact .inr ⟨a, ha, hflag⟩
      · exact .inl hvr
    · exact heffect.outdated hver hok hout

end Runs

end Heap

end Slp
