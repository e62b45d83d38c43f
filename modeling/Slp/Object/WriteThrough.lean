import Slp.Object.Chain

/-!
# Writing through a view

A round of a loop over an array of a chain of views turns the element it visits into a cell, of
that array only, and an assignment to the loop variable writes the cell.  With the changes through
the last view this gives the steps of a run: as long as each of them is `Writable`, the last view
stays valid, each view shows a part of its source, and the elements of the source outside that part
are as they were (`mirrors_of_run`).
-/

namespace Slp

namespace Heap

section Levels

variable {h h' : Heap} {m l : Level} {rest : List Level} {g : Level → List Value} {p : ℕ}
  {R R' : List Value} {v w : Value} {q r : Ref}

/-! ### Loops -/

theorem cell?_cons {c : HeapCell} (hc : c.ref = h.freshRef) (hw : h.Known w) :
    Heap.cell? (c :: h) w = h.cell? w := by
  cases w with
  | obj q =>
    rw [cell?_obj, cell?_obj, get?_cons, if_neg]
    rw [hc]
    exact Nat.ne_of_gt (hw q rfl)
  | null => rfl
  | bool b => rfl
  | num n => rfl

theorem get?_freshRef (h : Heap) : h.get? h.freshRef = none := by
  cases hr : h.get? h.freshRef with
  | none => rfl
  | some o => exact absurd rfl (ne_freshRef hr)

theorem set_of_getElem? {vs : List Value} {i : ℕ} (hv : vs[i]? = some v) : vs.set i v = vs := by
  obtain ⟨hi, rfl⟩ := List.getElem?_eq_some_iff.1 hv
  exact List.set_getElem_self hi

theorem viewIsValid_elements (hs : Stack h m (l :: rest)) (hvalid : h.viewIsValid m.ref = true)
    (hsame : ∀ q a, h.array? q = some a →
      ∃ es, h'.array? q = some { a with elements := es }) : h'.viewIsValid m.ref = true := by
  obtain ⟨⟨a, ha, hsource, -⟩, -, -, htail⟩ := hs
  obtain ⟨b, hb⟩ := htail.holds
  obtain ⟨es, ha'⟩ := hsame _ _ ha.array
  obtain ⟨fs, hb'⟩ := hsame _ _ hb.array
  exact (viewIsValid_iff ha' hsource hb').2 ((viewIsValid_iff ha.array hsource hb.array).1 hvalid)

/-- The elements of one array are changed in place. -/
theorem Stack.setOne {a : ArrayObj} {es : List Value} (hs : Stack h m rest)
    (ha : h.array? r = some a) (hlen : es.length = a.elements.length)
    (hset : ∀ q, h'.array? q = if r = q then some { a with elements := es } else h.array? q)
    (hg : ∀ l ∈ m :: rest, g l = if l.ref = r then es.take a.count else l.items) :
    Stack h' (m.change g) (rest.map (Level.change g)) := by
  have hholds : ∀ l ∈ m :: rest, ∀ b, Holds h l b →
      (∃ fs, Holds h' (l.change g) { b with elements := fs }) ∧ (l.change g).stop = l.stop := by
    intro l hl b hb
    by_cases hr : l.ref = r
    · obtain rfl := Option.some.inj (ha.symm.trans (hr ▸ hb.array))
      have hlive : es.take a.count = g l := by rw [hg l hl, if_pos hr]
      refine ⟨⟨es, (hset _).trans (if_pos hr.symm), hlen ▸ hb.sized, hlive⟩, ?_⟩
      show l.base + (g l).length = l.base + l.items.length
      rw [← hlive, ← hb.count, List.length_take, hlen, min_eq_left hb.sized]
    · have hlive : l.items = g l := by rw [hg l hl, if_neg hr]
      refine ⟨⟨b.elements, ((hset _).trans (if_neg (Ne.symm hr))).trans hb.array, hb.sized,
        hb.live.trans hlive⟩, ?_⟩
      show l.base + (g l).length = l.base + l.items.length
      rw [hlive]
  induction rest generalizing m with
  | nil =>
    obtain ⟨b, hb, hroot, hbase⟩ := hs
    obtain ⟨⟨fs, hfs⟩, -⟩ := hholds m List.mem_cons_self b hb
    exact ⟨_, hfs, hroot, hbase⟩
  | cons l rest ih =>
    obtain ⟨⟨b, hb, hsource, hbase⟩, hlt, hnest, htail⟩ := hs
    have hmem : ∀ l' ∈ l :: rest, l' ∈ m :: l :: rest := fun l' hl' => List.mem_cons_of_mem _ hl'
    obtain ⟨d, hd⟩ := htail.holds
    obtain ⟨⟨fs, hfs⟩, hstop⟩ := hholds m List.mem_cons_self b hb
    obtain ⟨-, hstopl⟩ := hholds l (hmem l List.mem_cons_self) d hd
    refine ⟨⟨_, hfs, hsource, hbase⟩, hlt, ?_, ih htail (fun l' hl' => hg l' (hmem l' hl'))
      fun l' hl' => hholds l' (hmem l' hl')⟩
    rw [hstop, hstopl]
    exact hnest

/-- The elements of the level at `r` with another value at the index `i`. -/
def Level.setAt (r : Ref) (i : ℕ) (v : Value) (l : Level) : List Value :=
  if l.ref = r then l.items.set i v else l.items

/-- The element that a loop visits is a cell afterwards, with the value it had. -/
structure Visited (h h' : Heap) (r : Ref) (i : ℕ) (e : Value) (c : Ref) : Prop where
  live : (h'.live r)[i]? = some (.obj c)
  content : ∃ watch, h'.cell? (.obj c) = some (c, h.read e, watch)
  same : (h.cell? e).isSome ∧ e = .obj c ∨ h.cell? e = none ∧ c = h.freshRef
  cells : ∀ w, h.Known w → h'.cell? w = h.cell? w
  fresh : h.freshRef ≤ h'.freshRef
  arrays : ∀ q a, h.array? q = some a → ∃ es, h'.array? q = some { a with elements := es }

theorem visit_spec (hs : Stack h m rest) (hl : l ∈ m :: rest) {i : ℕ} {e : Value}
    (he : l.items[i]? = some e) (hknown : h.Known e) :
    ∃ c, Visited h (h.visit l.ref i) l.ref i e c ∧
      Stack (h.visit l.ref i) (m.change (Level.setAt l.ref i (.obj c)))
        (rest.map (Level.change (Level.setAt l.ref i (.obj c)))) := by
  obtain ⟨a, ha⟩ := hs.holds_mem hl
  have hin : i < a.count := by
    rw [ha.count]
    exact (List.getElem?_eq_some_iff.1 he).1
  have hlen : i < a.elements.length := Nat.lt_of_lt_of_le hin ha.sized
  have helement : a.elements.getD i .null = e := by
    rw [← ha.live, live_getElem?, if_pos hin] at he
    rw [List.getD_eq_getElem?_getD, he]
    rfl
  rw [visit, ha.array]
  dsimp only
  rw [if_pos hin, helement]
  cases hcell : h.cell? e with
  | some found =>
    obtain ⟨c, content, watch⟩ := found
    obtain ⟨rfl, -⟩ := cell?_some hcell
    have hread : h.read (.obj c) = content := by rw [Heap.read, hcell]
    refine ⟨c, ⟨by rw [hs.live hl]; exact he, ⟨watch, by rw [hread]; exact hcell⟩,
      .inl ⟨by rw [hcell]; rfl, rfl⟩, fun _ _ => rfl, Nat.le_refl _,
      fun q a ha => ⟨a.elements, ha⟩⟩, ?_⟩
    refine hs.setOne ha.array (show a.elements.length = _ from rfl) (fun q => ?_) fun l' hl' => ?_
    · split_ifs with hq
      · rw [← hq, ha.array]
      · rfl
    · unfold Level.setAt
      split_ifs with hr
      · -- the element is the cell already
        have hitems : l'.items = l.items := by rw [← hs.live hl', ← hs.live hl, hr]
        rw [hitems, show a.elements.take a.count = l.items from ha.live]
        exact set_of_getElem? he
      · rfl
  | none =>
    have hne : h.freshRef ≠ l.ref := array?_ne_freshRef ha.array
    have hset : ∀ q, Heap.array? ({ ref := h.freshRef, obj := .scalarCell e none } ::
        h.set l.ref (.array { a with elements := a.elements.set i (.obj h.freshRef) })) q =
        if l.ref = q then some { a with elements := a.elements.set i (.obj h.freshRef) }
        else h.array? q := by
      intro q
      rw [← array?_setArray ha.array]
      unfold Heap.array?
      rw [get?_cons]
      split_ifs with hq
      · rw [← hq, get?_set_ne hne.symm, get?_freshRef]
      · rfl
    have hfresh := freshRef_set h l.ref
      (.array { a with elements := a.elements.set i (.obj h.freshRef) })
    have hlive : (a.elements.set i (.obj h.freshRef)).take a.count =
        l.items.set i (.obj h.freshRef) := by
      rw [List.take_set, ← ha.live]
      rfl
    refine ⟨h.freshRef, ⟨?_, ⟨none, ?_⟩, .inr ⟨hcell, rfl⟩, ?_, ?_, ?_⟩, ?_⟩
    · rw [Heap.live, hset, if_pos rfl]
      show ((a.elements.set i (.obj h.freshRef)).take a.count)[i]? = _
      rw [hlive, List.getElem?_set_self (List.getElem?_eq_some_iff.1 he).1]
    · rw [cell?_obj, get?_cons, if_pos rfl, read_of_none hcell]
    · intro w hw
      have hw' : Known (h.set l.ref
          (.array { a with elements := a.elements.set i (.obj h.freshRef) })) w :=
        hw.mono hfresh.ge
      rw [cell?_cons hfresh.symm hw', cell?_setArray ha.array]
    · show h.freshRef ≤ max (h.freshRef + 1) (Heap.freshRef (h.set l.ref _))
      rw [hfresh]
      exact Nat.le_max_right _ _
    · intro q b hb
      by_cases hq : l.ref = q
      · subst hq
        obtain rfl := Option.some.inj (ha.array.symm.trans hb)
        exact ⟨_, (hset _).trans (if_pos rfl)⟩
      · exact ⟨b.elements, ((hset q).trans (if_neg hq)).trans hb⟩
    · refine hs.setOne ha.array
        (show (a.elements.set i (.obj h.freshRef)).length = _ from List.length_set) hset ?_
      intro l' hl'
      unfold Level.setAt
      split_ifs with hr
      · have hitems : l'.items = l.items := by rw [← hs.live hl', ← hs.live hl, hr]
        rw [hitems, hlive]
      · rfl

theorem mem_setAt {i : ℕ} {x : Value} (hw : w ∈ Level.setAt r i x l) : w ∈ l.items ∨ w = x := by
  unfold Level.setAt at hw
  split_ifs at hw
  · exact List.mem_or_eq_of_mem_set hw
  · exact .inl hw

theorem length_setAt (r : Ref) (i : ℕ) (x : Value) (l : Level) :
    (Level.setAt r i x l).length = l.items.length := by
  unfold Level.setAt
  split_ifs
  · exact List.length_set
  · rfl

/-- A visit changes nothing that is read. -/
theorem linked_visit {i : ℕ} {e : Value} {c : Ref} (hl : Linked h m rest R) (hmem : l ∈ m :: rest)
    (he : l.items[i]? = some e) (hv : Visited h h' l.ref i e c)
    (hs' : Stack h' (m.change (Level.setAt l.ref i (.obj c)))
      (rest.map (Level.change (Level.setAt l.ref i (.obj c))))) :
    Linked h' (m.change (Level.setAt l.ref i (.obj c)))
      (rest.map (Level.change (Level.setAt l.ref i (.obj c)))) R := by
  obtain ⟨watch, hcontent⟩ := hv.content
  have hcell : h'.read (.obj c) = h.read e := by rw [Heap.read, hcontent]
  have hc : h'.Known (.obj c) := by
    obtain ⟨-, hget⟩ := cell?_some hcontent
    obtain ⟨d, hd, hdr, -⟩ := exists_mem_of_get? hget
    intro q hq
    cases hq
    exact hdr ▸ lt_freshRef hd
  refine ⟨hs', ?_, ?_⟩
  · rw [← List.map_cons, List.forall_mem_map]
    intro l' hl'
    refine ⟨?_, fun j w hw => ?_⟩
    · show l'.base + (Level.setAt l.ref i (.obj c) l').length ≤ R.length
      rw [length_setAt]
      exact (hl.shows l' hl').stop_le
    · change (Level.setAt l.ref i (.obj c) l')[j]? = some w at hw
      show R[l'.base + j]? = some (h'.read w)
      have hold : ∀ w, l'.items[j]? = some w → R[l'.base + j]? = some (h'.read w) := by
        intro w hw
        rw [Heap.read, hv.cells w (hl.known l' hl' w (List.mem_of_getElem? hw))]
        exact (hl.shows l' hl').read j w hw
      unfold Level.setAt at hw
      split_ifs at hw with hr
      · by_cases hj : i = j
        · subst hj
          have hitems : l'.items = l.items := by rw [← hl.stack.live hl', ← hl.stack.live hmem, hr]
          rw [hitems, List.getElem?_set_self (List.getElem?_eq_some_iff.1 he).1] at hw
          cases hw
          rw [hcell]
          exact (hl.shows l' hl').read i e (hitems ▸ he)
        · rw [List.getElem?_set_ne hj] at hw
          exact hold w hw
      · exact hold w hw
  · rw [← List.map_cons, List.forall_mem_map]
    intro l' hl' w hw
    rcases mem_setAt hw with hw | rfl
    · exact (hl.known l' hl' w hw).mono hv.fresh
    · exact hc

/-- The cell of a place is assigned, and no array shows it elsewhere or the place otherwise. -/
theorem shows_assign {c : Ref} {x : Value} (hl : Linked h m rest R)
    (hwrote : Wrote h h' x fun w => w = .obj c) (hassigned : Assigned h h' x (.obj c))
    (hplace : ∀ l ∈ m :: rest, ∀ j w, l.items[j]? = some w → (l.base + j = p ↔ w = .obj c)) :
    ∀ l ∈ m :: rest, Shows h' (R.set p x) l := by
  intro l hl'
  have hset : Shows h' (R.set p x) (l.change Level.items) := (hl.shows l hl').set rfl ?_ ?_
  · exact hset
  · intro j w hw hj
    refine ⟨w, hw, ?_⟩
    rcases hwrote w with hsame | ⟨-, rfl⟩
    · rw [Heap.read, Heap.read, hsame]
    · exact absurd ((hplace l hl' j _ hw).2 rfl) hj
  · intro j w hw hj
    rw [(hplace l hl' j w hw).1 hj]
    exact hassigned.read

theorem isCell_eq (h : Heap) (v : Value) : h.isCell v = (h.cell? v).isSome := by
  cases v with
  | obj q =>
    rw [isCell_obj, cell?_obj]
    cases h.get? q with
    | none => rfl
    | some o => cases o <;> rfl
  | null => rfl
  | bool b => rfl
  | num n => rfl

/-- An assignment to the loop variable. -/
theorem watchedCellAssign_spec {c : Ref} {x content : Value} {watch : Option Ref}
    (hc : h.cell? (.obj c) = some (c, content, watch)) (hx : h.cell? x = none) :
    (∀ q, (h.watchedCellAssign c x).array? q = h.array? q) ∧
      Wrote h (h.watchedCellAssign c x) x (fun w => w = .obj c) ∧
      Assigned h (h.watchedCellAssign c x) x (.obj c) ∧
      (h.watchedCellAssign c x).freshRef = h.freshRef := by
  obtain ⟨-, hget⟩ := cell?_some hc
  have hx' : h.isCell x = false := by rw [isCell_eq, hx]; rfl
  rw [watchedCellAssign, hget]
  dsimp only
  rw [dereferenceValue_of_not_cell hx']
  have hassigned : Assigned h (h.set c (.scalarCell x watch)) x (.obj c) := by
    refine ⟨c, content, watch, hc, ?_⟩
    rw [cell?_obj, get?_set_self (by rw [hget]; rfl)]
  refine ⟨array?_setCell hget, fun w => ?_, hassigned, freshRef_set _ _ _⟩
  by_cases hw : w = .obj c
  · subst hw
    exact .inr ⟨hassigned, rfl⟩
  · left
    cases w with
    | obj q => rw [cell?_obj, cell?_obj, get?_set_ne fun hq => hw (congrArg Value.obj hq.symm)]
    | null => rfl
    | bool b => rfl
    | num n => rfl

theorem elsewhere_refl (h : Heap) (p : ℕ) (chain : List Ref) : h.Elsewhere h p chain := by
  induction chain with
  | nil => trivial
  | cons s chain ih => exact ⟨fun _ _ => rfl, ih⟩

/-- The cells of the levels after a visit, at the place visited and elsewhere. -/
theorem place_iff_of_visit {i : ℕ} {e : Value} {c : Ref} (hl : Linked h m rest R)
    (hmem : l ∈ m :: rest) (he : l.items[i]? = some e) (hv : Visited h h' l.ref i e c)
    (halone : h.Alone (refs m rest) (l.base + i) e)
    (hheld : ∀ q w, h.HeldBy (refs m rest) q (l.base + i) w → q = l.ref ∨ w = e ∧ (h.cell? e).isSome) :
    ∀ l' ∈ m :: rest, ∀ j w, (Level.setAt l.ref i (.obj c) l')[j]? = some w →
      (l'.base + j = l.base + i ↔ w = .obj c) := by
  have hs := hl.stack
  intro l' hl' j w hw
  -- a fresh cell is held by no level before
  have hfresh : h.cell? e = none → c = h.freshRef → ∀ w, l'.items[j]? = some w → w ≠ .obj c := by
    rintro - rfl w hw rfl
    exact absurd (hl.known l' hl' _ (List.mem_of_getElem? hw) _ rfl) (Nat.lt_irrefl _)
  have hold : l'.items[j]? = some w → w = .obj c → l'.base + j = l.base + i := by
    rintro hw rfl
    rcases hv.same with ⟨hsome, rfl⟩ | ⟨hnone, hc⟩
    · exact halone hsome _ _ (hs.heldBy_of_getElem? hl' hw)
    · exact absurd rfl (hfresh hnone hc _ hw)
  unfold Level.setAt at hw
  split_ifs at hw with hr
  · have hitems : l'.items = l.items := by rw [← hs.live hl', ← hs.live hmem, hr]
    have hbase : l'.base = l.base := by rw [← hs.placeOf hl', ← hs.placeOf hmem, hr]
    by_cases hj : i = j
    · subst hj
      rw [hitems, List.getElem?_set_self (List.getElem?_eq_some_iff.1 he).1] at hw
      cases hw
      exact ⟨fun _ => rfl, fun _ => by rw [hbase]⟩
    · rw [List.getElem?_set_ne hj] at hw
      refine ⟨fun hplace => absurd ?_ hj, hold hw⟩
      rw [hbase] at hplace
      exact (Nat.add_left_cancel hplace).symm
  · refine ⟨fun hplace => ?_, hold hw⟩
    have hat := hs.heldBy_of_getElem? hl' hw
    rw [hplace] at hat
    rcases hheld _ _ hat with hq | ⟨rfl, hsome⟩
    · exact absurd hq hr
    · rcases hv.same with ⟨-, heq⟩ | ⟨hnone, -⟩
      · exact heq
      · rw [hnone] at hsome
        cases hsome

/-- A round of a loop over an array of the chain. -/
theorem joined_foreach (hl : Linked h m (l :: rest) R) (hvalid : h.viewIsValid m.ref = true)
    (r : Ref) (i : ℕ) (assigned : Option Value)
    (hfits : h.Fits (refs m (l :: rest)) (.foreach r i assigned))
    (hok : h.Writable (refs m (l :: rest)) m.ref (.foreach r i assigned)) :
    (h.foreachRound r i assigned).Joined (refs m (l :: rest)) ∧
      h.Elsewhere (h.foreachRound r i assigned) (h.placeOf (refs m (l :: rest)) r + i)
        (refs m (l :: rest)) := by
  have hs := hl.stack
  obtain ⟨hr, hplain⟩ := hfits
  obtain ⟨l₀, hl₀, rfl⟩ := List.mem_map.1 hr
  rw [hs.placeOf hl₀]
  cases he : l₀.items[i]? with
  | none =>
    -- the loop is over
    have hnone : (h.live l₀.ref)[i]? = none := by rw [hs.live hl₀, he]
    have hvisit : h.visit l₀.ref i = h := by
      obtain ⟨a, ha⟩ := hs.holds_mem hl₀
      rw [visit, ha.array]
      dsimp only
      rw [if_neg]
      rw [ha.count]
      exact Nat.not_lt.2 (List.getElem?_eq_none_iff.1 he)
    have hround : h.foreachRound l₀.ref i assigned = h := by
      unfold foreachRound
      rw [hvisit]
      dsimp only
      rw [hnone]
      cases assigned <;> rfl
    rw [hround]
    exact ⟨⟨m, l :: rest, R, rfl, hl, hvalid⟩, elsewhere_refl _ _ _⟩
  | some e =>
    obtain ⟨c, hv, hs₁⟩ := visit_spec hs hl₀ he (hl.known l₀ hl₀ e (List.mem_of_getElem? he))
    have hl₁ := linked_visit hl hl₀ he hv hs₁
    have hvalid₁ := viewIsValid_elements hs hvalid hv.arrays
    have hlength : ∀ l' ∈ m :: l :: rest,
        (Level.setAt l₀.ref i (.obj c) l').length = l'.items.length :=
      fun l' _ => length_setAt _ _ _ l'
    cases assigned with
    | none =>
      have hround : h.foreachRound l₀.ref i none = h.visit l₀.ref i := rfl
      rw [hround]
      refine ⟨⟨_, _, R, refs_change _ _ _, hl₁, hvalid₁⟩, ?_⟩
      exact elsewhere_of_shows hs hs₁ hl.shows (List.forall_mem_map.1 hl₁.shows)
        (fun _ _ => rfl) hlength
    | some x =>
      have hround : h.foreachRound l₀.ref i (some x) = (h.visit l₀.ref i).watchedCellAssign c x := by
        unfold foreachRound
        dsimp only
        rw [hv.live]
      rw [hround]
      have hx := hplain x rfl
      obtain ⟨watch, hcontent⟩ := hv.content
      obtain ⟨harrays, hwrote, hassigned, hfresh⟩ :=
        watchedCellAssign_spec hcontent ((hv.cells x hx.known).trans hx.notCell)
      have hs₂ := hs₁.congr fun q _ => harrays q
      obtain ⟨R', hR', hother⟩ : ∃ R', (∀ l' ∈ m.change (Level.setAt l₀.ref i (.obj c)) ::
          (l :: rest).map (Level.change (Level.setAt l₀.ref i (.obj c))),
          Shows ((h.visit l₀.ref i).watchedCellAssign c x) R' l') ∧
          ∀ k, k ≠ l₀.base + i → R'[k]? = R[k]? := by
        have hcase := hok e (by rw [hs.live hl₀, he])
        rw [hs.placeOf hl₀] at hcase
        rcases hcase with hsame | ⟨halone, hheld⟩
        · -- the cell has the value already
          refine ⟨R, fun l' hl' => ⟨(hl₁.shows l' hl').stop_le, fun j w hw => ?_⟩, fun _ _ => rfl⟩
          rw [(hl₁.shows l' hl').read j w hw]
          rcases hwrote w with heq | ⟨-, rfl⟩
          · rw [Heap.read, Heap.read, heq]
          · rw [hassigned.read, Heap.read, hcontent, hsame]
        · refine ⟨R.set (l₀.base + i) x, shows_assign hl₁ hwrote hassigned ?_, ?_⟩
          · rw [← List.map_cons, List.forall_mem_map]
            exact place_iff_of_visit hl hl₀ he hv halone hheld
          · exact fun k hk => List.getElem?_set_ne (Ne.symm hk)
      refine ⟨⟨_, _, R', refs_change _ _ _, ⟨hs₂, hR', ?_⟩, ?_⟩, ?_⟩
      · exact fun l' hl' w hw => (hl₁.known l' hl' w hw).mono hfresh.ge
      · rw [← hvalid₁]
        show viewIsValid _ m.ref = _
        simp only [viewIsValid, harrays]
      · exact elsewhere_of_shows hs hs₂ hl.shows (List.forall_mem_map.1 hR') hother hlength

/-- One step, through the last view or by a loop. -/
theorem joined_step (hl : Linked h m (l :: rest) R) (hvalid : h.viewIsValid m.ref = true)
    (op : ViewOp) (hfits : h.Fits (refs m (l :: rest)) op)
    (hok : h.Writable (refs m (l :: rest)) m.ref op) :
    (h.perform m.ref op).Joined (refs m (l :: rest)) ∧
      h.Undisturbed (h.perform m.ref op) (refs m (l :: rest)) op := by
  cases op with
  | change op =>
    have hsound := sound_change hl hvalid op hfits hok
    exact ⟨hsound.joined, hsound.outside⟩
  | sort greater =>
    have hsound := sound_rearrange hl hvalid (sortElements greater) rfl hok
    exact ⟨hsound.joined, hsound.outside⟩
  | reverse =>
    have hsound := sound_rearrange hl hvalid List.reverse rfl hok
    exact ⟨hsound.joined, hsound.outside⟩
  | foreach r i assigned => exact joined_foreach hl hvalid r i assigned hfits hok

end Levels

/-! ### Runs -/

section Runs

variable {h h' : Heap} {r q v : Ref}

theorem foldl_push_sized (a : ArrayObj) (hsize : a.count ≤ a.elements.length) (vs : List Value) :
    (vs.foldl ArrayObj.push a).count ≤ (vs.foldl ArrayObj.push a).elements.length ∧
      (vs.foldl ArrayObj.push a).viewInvalid = a.viewInvalid := by
  induction vs generalizing a with
  | nil => exact ⟨hsize, rfl⟩
  | cons v vs ih =>
    obtain ⟨hsize', hflag⟩ := ih (a.push v) (ArrayObj.count_le_push v)
    exact ⟨hsize', hflag.trans (viewInvalid_ensureCapacity a _)⟩

theorem live_newView (b : ArrayObj) (r : Ref) (i : ℕ) {j : ℕ} (hj : j ≤ b.count) :
    (newView b r i j).live = (b.live.drop i).take (j - i) := by
  show (((b.elements.drop i).take (j - i)).foldl ArrayObj.push {}).live = _
  rw [ArrayObj.live_foldl_push (Nat.le_refl 0)]
  refine List.ext_getElem? fun k => ?_
  rw [show ArrayObj.live {} = [] from rfl, List.nil_append, List.getElem?_take,
    List.getElem?_take, List.getElem?_drop, List.getElem?_drop, live_getElem?]
  by_cases hk : k < j - i
  · rw [if_pos hk, if_pos hk, if_pos (by omega)]
  · rw [if_neg hk, if_neg hk]

/-- A new view shows a part of the array it is made from. -/
theorem Joined.sublist {start : ℤ} {stop : Option ℤ} {chain : List Ref}
    (hj : h.Joined (r :: chain)) (hsub : h.sublist r start stop = some (h', q)) :
    h'.Joined (q :: r :: chain) := by
  obtain ⟨m, rest, R, hrefs, hl, -⟩ := hj
  obtain ⟨hmr, hchain⟩ := List.cons.inj hrefs
  obtain ⟨b, i, j, hb, rfl, hij, hjc, rfl⟩ := sublist_cases hsub
  obtain ⟨a, ha⟩ := hl.stack.holds
  obtain rfl := Option.some.inj (hb.symm.trans (hmr ▸ ha.array))
  have hcount := ha.count
  obtain ⟨hsized, hflag⟩ := foldl_push_sized {} (Nat.le_refl 0) ((b.elements.drop i).take (j - i))
  have hlive := live_newView b r i hjc
  rw [ha.live] at hlive
  have hlt : r < h.freshRef := by
    obtain ⟨c, hc, hcr, -⟩ := exists_mem_of_get? (get?_of_array? hb)
    exact hcr ▸ lt_freshRef hc
  have hself : Heap.array? ({ ref := h.freshRef, obj := .array (newView b r i j) } :: h) h.freshRef =
      some (newView b r i j) := by
    rw [array?_cons, if_pos rfl]
  have hold : ∀ s, s ≤ m.ref →
      Heap.array? ({ ref := h.freshRef, obj := .array (newView b r i j) } :: h) s = h.array? s := by
    intro s hs
    rw [array?_cons, if_neg]
    rintro rfl
    exact absurd (hmr ▸ hs) (Nat.not_le.2 hlt)
  have hread : ∀ w, h.Known w →
      Heap.read ({ ref := h.freshRef, obj := .array (newView b r i j) } :: h) w = h.read w := by
    intro w hw
    rw [Heap.read, Heap.read, cell?_cons rfl hw]
  have hmono : h.freshRef ≤
      Heap.freshRef ({ ref := h.freshRef, obj := .array (newView b r i j) } :: h) :=
    Nat.le_max_right _ _
  have hlen : ((m.items.drop i).take (j - i)).length = j - i := by
    rw [List.length_take, List.length_drop]
    omega
  have hm := hl.shows m List.mem_cons_self
  have hstop := hm.stop_le
  unfold Level.stop at hstop
  refine ⟨⟨h.freshRef, m.base + i, (m.items.drop i).take (j - i)⟩, m :: rest, R, ?_,
    ⟨⟨⟨newView b r i j, ⟨hself, hsized, hlive⟩, congrArg some hmr.symm, rfl⟩, hmr ▸ hlt, ?_,
      hl.stack.congr hold⟩, ?_, ?_⟩, ?_⟩
  · show h.freshRef :: refs m rest = _
    rw [refs, List.map_cons, hmr, ← hchain]
  · show m.base + i + ((m.items.drop i).take (j - i)).length ≤ m.base + m.items.length
    rw [hlen]
    omega
  · intro l' hl'
    rcases List.mem_cons.1 hl' with rfl | hl'
    · refine ⟨?_, fun k w hw => ?_⟩
      · show m.base + i + ((m.items.drop i).take (j - i)).length ≤ R.length
        rw [hlen]
        omega
      · change ((m.items.drop i).take (j - i))[k]? = some w at hw
        show R[m.base + i + k]? = _
        rw [List.getElem?_take] at hw
        split_ifs at hw with hk
        rw [List.getElem?_drop] at hw
        rw [hread w (hl.known m List.mem_cons_self w (List.mem_of_getElem? hw)), Nat.add_assoc]
        exact hm.read _ w hw
    · refine ⟨(hl.shows l' hl').stop_le, fun k w hw => ?_⟩
      rw [hread w (hl.known l' hl' w (List.mem_of_getElem? hw))]
      exact (hl.shows l' hl').read k w hw
  · intro l' hl' w hw
    rcases List.mem_cons.1 hl' with rfl | hl'
    · exact (hl.known m List.mem_cons_self w
        (List.mem_of_mem_drop (List.mem_of_mem_take hw))).mono hmono
    · exact (hl.known l' hl' w hw).mono hmono
  · have hsource : Heap.array? ({ ref := h.freshRef, obj := .array (newView b r i j) } :: h) r =
        some b := (hold r (hmr ▸ Nat.le_refl _)).trans hb
    exact (viewIsValid_iff hself rfl hsource).2 ⟨hflag, rfl⟩

/-- In a run of writable steps the arrays of the chain hold together. -/
theorem ChainRun.joined {chain : List Ref} (hrun : ChainRun Writable h chain) : h.Joined chain := by
  induction hrun with
  | @start h r a ha hroot hsized hknown =>
    refine ⟨⟨r, 0, a.live⟩, [], a.live.map h.read, rfl, ⟨⟨a, ⟨ha, hsized, rfl⟩, hroot, rfl⟩, ?_, ?_⟩, ?_⟩
    · intro l hl
      obtain rfl := List.mem_singleton.1 hl
      refine ⟨?_, fun j w hw => ?_⟩
      · show 0 + a.live.length ≤ _
        rw [List.length_map, Nat.zero_add]
      · show (a.live.map h.read)[0 + j]? = _
        rw [Nat.zero_add, List.getElem?_map, show a.live[j]? = some w from hw]
        rfl
    · intro l hl
      obtain rfl := List.mem_singleton.1 hl
      exact hknown
    · show h.viewIsValid r = true
      rw [viewIsValid, ha]
      dsimp only
      rw [hroot]
  | sublist start stop _ hsub ih => exact ih.sublist hsub
  | @step h v s chain op _ hfits hok ih =>
    obtain ⟨m, rest, R, hrefs, hl, hvalid⟩ := ih
    cases rest with
    | nil => cases hrefs
    | cons l rest =>
      obtain ⟨rfl, -⟩ := List.cons.inj hrefs
      rw [← hrefs] at hfits hok ⊢
      exact (joined_step hl hvalid op hfits hok).1

/-- An array of two elements and a view of both. -/
def twoLevels : Heap :=
  let a : ArrayObj := { elements := [.num 1, .num 2], count := 2 }
  [⟨1, false, .array (newView a 0 0 2)⟩, ⟨0, false, .array a⟩]

theorem known_num (h : Heap) (n : ℤ) : h.Known (.num n) := by
  intro r hr
  cases hr

theorem plain_num (h : Heap) (n : ℤ) : h.Plain (.num n) := ⟨known_num h n, rfl⟩

theorem chainRun_twoLevels (ok : Heap → List Ref → Ref → ViewOp → Prop) :
    ChainRun ok twoLevels [1, 0] := by
  have hstart : ChainRun ok [⟨0, false, .array { elements := [.num 1, .num 2], count := 2 }⟩] [0] :=
    .start rfl rfl (Nat.le_refl _) fun w hw => by
      rcases List.mem_pair.1 hw with rfl | rfl
      · exact known_num _ 1
      · exact known_num _ 2
  exact hstart.sublist 0 none (by decide)

theorem not_mirrors {s : Ref} {chain : List Ref} {a : ArrayObj} (ha : h.array? v = some a)
    (hne : h.shown v ≠ ((h.shown s).drop a.viewOffset).take a.count) :
    ¬h.Mirrors (v :: s :: chain) := by
  rintro ⟨⟨b, hb, -, hshown⟩, -⟩
  obtain rfl := Option.some.inj (ha.symm.trans hb)
  exact hne hshown

end Runs

end Heap

end Slp
