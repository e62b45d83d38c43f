import Mathlib.Data.List.Nodup
import Slp.Stdlib.Clone

/-!
# When a copy is isomorphic to the original

`IsClone` : the copy is isomorphic to the original up to scalar cells.  Some relation pairs the
arrays and hashes of the two one to one; the elements of an array, and the visible entries of a
hash, are paired in turn, in order; and the two have no array or hash in common.

The loop of `clone_serializable_hash` goes through the first ordinals, as many as there are visible
entries, but the ordinals count the entries that hold null as well.  `clonesWell_iff` : the copying
gives a clone exactly if each entry it goes through reads as something other than null, that is, if
in every hash the entries that hold null come last and no visible entry holds a cell with null.
-/

namespace Slp

namespace Stdlib

/-- The visible entries of a table, in order. -/
def visible (fmt : Printf) (h : Heap) (t : HashObj) : List HashEntry :=
  (t.inOrder fmt h).filter fun e => e.value ≠ .null

/-- Two entries with one name, and with values that read as a value and its image. -/
def SameEntry (h h' : Heap) (R : Ref → Ref → Prop) (e e' : HashEntry) : Prop :=
  HashObj.nameText h' e'.key = HashObj.nameText h e.key ∧
    Image h R (h.dereferenceValue e.value) (h'.dereferenceValue e'.value)

/-- Two containers with the same contents, up to the images of the containers in them: the elements
of an array in order, the visible entries of a hash, in order if the hash is ordered. -/
inductive SameContents (fmt : Printf) (h h' : Heap) (R : Ref → Ref → Prop) (r r' : Ref) : Prop where
  | array {a a' : ArrayObj} (hr : h.get? r = some (.array a)) (hr' : h'.get? r' = some (.array a'))
      (helements : List.Forall₂
        (fun v v' => Image h R (h.dereferenceValue v) (h'.dereferenceValue v')) a.live a'.live)
  | hash {t t' : HashObj} {es : List HashEntry} (hr : h.get? r = some (.hash t))
      (hr' : h'.get? r' = some (.hash t')) (hmode : t'.orderMode = t.orderMode)
      (hentries : List.Forall₂ (SameEntry h h' R) (visible fmt h t) es)
      (hperm : es.Perm (visible fmt h' t')) (horder : t.orderMode ≠ 0 → es = visible fmt h' t')

/-- The value `v'` of the heap `h'` is a clone of the value `v` of the heap `h`, with the containers
paired by `R`. -/
structure IsClone (fmt : Printf) (h h' : Heap) (v v' : Value) (R : Ref → Ref → Prop) : Prop where
  /-- The original is left alone. -/
  grown : Extends h h'
  root : Image h R (h.dereferenceValue v) v'
  functional : ∀ r r' s', R r r' → R r s' → r' = s'
  injective : ∀ r s r', R r r' → R s r' → r = s
  contents : ∀ r r', R r r' → SameContents fmt h h' R r r'
  /-- The copies are new objects. -/
  new : ∀ r r', R r r' → h.get? r' = none
  /-- No array or hash is part of both. -/
  apart : ∀ r, PartOf h' v r → PartOf h' v' r → isContainer h' (.obj r) = false

/-- What `clone_serializable` owes its caller: it ends, with a clone. -/
def ClonesWell (sizeof : ObjType → ℕ) (fmt : Printf) (vm : VM) (v : Value) : Prop :=
  ∃ vm' v' R, cloneSerializable sizeof fmt vm v = some (vm', v') ∧
    IsClone fmt vm.objects vm'.objects v v' R

/-- In every hash of the data structure, each of the first entries, as many as the hash has visible
ones, reads as something other than null. -/
def Cloneable (fmt : Printf) (h : Heap) (v : Value) : Prop :=
  ∀ r t, PartOf h v r → h.get? r = some (.hash t) →
    ∀ e ∈ walked fmt h t, h.dereferenceValue e.value ≠ .null

/-! ### Pairs of lists -/

section Lists

variable {α β : Type*} {R S : α → β → Prop} {l : List α} {u : List β} {a : α} {b : β}

theorem exists_of_mem_left (h : List.Forall₂ R l u) (ha : a ∈ l) : ∃ b ∈ u, R a b := by
  induction h with
  | nil => cases ha
  | cons hr _ ih =>
    rcases List.mem_cons.1 ha with rfl | ha
    · exact ⟨_, List.mem_cons_self, hr⟩
    · obtain ⟨b, hb, hab⟩ := ih ha
      exact ⟨b, List.mem_cons_of_mem _ hb, hab⟩

theorem exists_of_mem_right (h : List.Forall₂ R l u) (hb : b ∈ u) : ∃ a ∈ l, R a b :=
  exists_of_mem_left (R := Function.swap R) h.flip hb

theorem forall₂_and (h : List.Forall₂ R l u) (h' : List.Forall₂ S l u) :
    List.Forall₂ (fun a b => R a b ∧ S a b) l u := by
  induction h with
  | nil => exact .nil
  | cons hr _ ih =>
    cases h' with
    | cons hs hrest => exact .cons ⟨hr, hs⟩ (ih hrest)

end Lists

/-! ### The copy that is made -/

section Copy

variable {fmt : Printf} {h h' : Heap} {v v' : Value} {R : Ref → Ref → Prop} {r r' : Ref}
  {t : HashObj} {es : List HashEntry}

/-- The copying ends, and all containers it met have filled copies. -/
theorem exists_cloneSerializable (sizeof : ObjType → ℕ) {vm : VM}
    (hser : Serializable fmt vm.objects v) :
    ∃ s v', cloneSerializable sizeof fmt vm v = some (s.vm, v') ∧ Copying vm.objects v s ∧
      (∀ r r', s.Pairs r r' → Filled fmt vm.objects s.vm.objects s.Pairs r r') ∧
      Image vm.objects s.Pairs (vm.objects.dereferenceValue v) v' := by
  have hstart : Copying vm.objects v ⟨vm, []⟩ :=
    ⟨.refl _, List.nodup_nil, List.nodup_nil, by rintro r r' ⟨⟩, by rintro r r' ⟨⟩⟩
  obtain ⟨s, v', heq, hg, himage⟩ := cloneValue_clones sizeof hser (vm.objects.length + 1) _ v hstart
    (Nat.lt_succ_self _) (within_self _ v)
  obtain ⟨new, hnew, hfilled⟩ := hg.new
  refine ⟨s, v', by rw [cloneSerializable, heq]; rfl, hg.copying, fun r r' hr => ?_, himage⟩
  rw [CloneState.Pairs, hnew] at hr
  exact hfilled (r, r') hr

theorem Filled.not_cell (hf : Filled fmt h h' R r r') : h'.isCell (.obj r') = false := by
  cases hf with
  | array _ hr' => rw [Heap.isCell_obj, hr']
  | hash _ hr' => rw [Heap.isCell_obj, hr']

theorem Filled.isContainer (hf : Filled fmt h h' R r r') :
    Stdlib.isContainer h' (.obj r') = true := by
  cases hf with
  | array _ hr' => exact isContainer_array hr'
  | hash _ hr' => exact isContainer_hash hr'

/-- In a copy there are no cells. -/
theorem Image.dereferenceValue (hext : Extends h h') (hfilled : ∀ r r', R r r' → Filled fmt h h' R r r')
    (hv : Solid h v) (hi : Image h R v v') : h'.dereferenceValue v' = v' := by
  refine Heap.dereferenceValue_of_not_cell ?_
  cases hi with
  | leaf _ => exact hext.isCell hv
  | node _ hr => exact (hfilled _ _ hr).not_cell

/-- An image is null exactly if the value is. -/
theorem Image.eq_null (hi : Image h R v v') : v' = .null ↔ v = .null := by
  cases hi with
  | leaf _ => rfl
  | node _ _ => exact ⟨by rintro ⟨⟩, by rintro ⟨⟩⟩

/-- If the entries that are copied hold something, they are the visible ones. -/
theorem walked_eq_visible (ho : HashObj.InOrder t es) (hsafe : ∀ e ∈ walked fmt h t, e.value ≠ .null) :
    walked fmt h t = visible fmt h t := by
  obtain ⟨rest, hsplit⟩ : ∃ rest, visible fmt h t = walked fmt h t ++ rest := by
    refine ⟨((t.inOrder fmt h).drop t.visibleCount).filter fun e => e.value ≠ .null, ?_⟩
    conv_lhs => rw [visible, ← List.take_append_drop t.visibleCount (t.inOrder fmt h)]
    rw [List.filter_append]
    congr 1
    exact List.filter_eq_self.2 fun e he => by simpa using hsafe e he
  have hcount : t.visibleCount = (visible fmt h t).length :=
    HashObj.visibleCount_eq (HashObj.ordered_spec fmt h ho.sized ho.nodup_sequence).2.1
  rw [hsplit, List.length_append, length_walked fmt h ho] at hcount
  rw [hsplit, List.eq_nil_of_length_eq_zero (l := rest) (by omega), List.append_nil]

/-- If the entries of a table hold something, they are all visible. -/
theorem perm_visible (fmt : Printf) (h : Heap) (ho : HashObj.InOrder t es)
    (hsafe : ∀ e ∈ es, e.value ≠ .null) :
    es.Perm (visible fmt h t) ∧ (t.orderMode ≠ 0 → es = visible fmt h t) := by
  have hperm := ho.perm.trans (inOrder_perm fmt h ho).symm
  have hvisible : visible fmt h t = t.inOrder fmt h :=
    List.filter_eq_self.2 fun e he => by simpa using hsafe e (hperm.mem_iff.2 he)
  rw [hvisible]
  exact ⟨hperm, fun hmode => (ho.map_ordered fmt h hmode).symm⟩

end Copy

section Clone

variable {fmt : Printf} {h : Heap} {v v' : Value} {s : CloneState} {r r' : Ref}

/-- A filled copy has the contents of the original, if no entry is lost. -/
theorem sameContents_of_filled (hser : Serializable fmt h v) (hs : Copying h v s)
    (hfilled : ∀ r r', s.Pairs r r' → Filled fmt h s.vm.objects s.Pairs r r')
    (hsafe : Cloneable fmt h v) (hr : s.Pairs r r') :
    SameContents fmt h s.vm.objects s.Pairs r r' := by
  have hpart := (hs.source r r' hr).1
  cases hfilled r r' hr with
  | array ho ho' hroom helements =>
    refine .array ho ho' (((List.forall₂_and_left _ _).2 ⟨fun w hw => hpart.within
      (mem_contents_array ho hw), helements⟩).imp fun w w' hw => ?_)
    rw [hw.2.dereferenceValue hs.grown hfilled (hser.solid hw.1)]
    exact hw.2
  | @hash t t' d es ho ho' hmode horder hmap hentries =>
    obtain ⟨o, ho₀, hdata⟩ := hser r hpart
    obtain rfl := Option.some.inj (ho.symm.trans ho₀)
    obtain ⟨⟨d₀, hd₀⟩, fs, hfs⟩ := hdata
    have hread := hsafe r t hpart ho
    -- what is copied is what is visible, and so it is in the copy
    have hwalked := walked_eq_visible hfs fun e he hnull => hread e he (by
      rw [hnull]
      exact Heap.dereferenceValue_of_not_cell rfl)
    obtain ⟨hperm, hsame⟩ := perm_visible fmt s.vm.objects horder
      fun e' he' hnull => by
        obtain ⟨e, he, -, himage⟩ := exists_of_mem_right hentries he'
        exact hread e he (himage.eq_null.1 hnull)
    refine .hash ho ho' hmode ?_ hperm fun hno => hsame (hmode ▸ hno)
    rw [← hwalked]
    refine ((List.forall₂_and_left _ _).2 ⟨fun e he => mem_of_walked hfs he, hentries⟩).imp
      fun e e' hcopy => ?_
    obtain ⟨hlive, hkey, himage⟩ := hcopy
    obtain ⟨name, hname⟩ := Option.isSome_iff_exists.1 (hd₀.label e hlive)
    refine ⟨?_, ?_⟩
    · rw [hkey, show HashObj.nameText h e.key = some name from hname,
        hs.grown.keepsStrings.nameText hname]
    · rw [himage.dereferenceValue hs.grown hfilled
        (hser.solid (hpart.within (mem_contents_hash ho hlive).2))]
      exact himage

/-! ### Nothing in common -/

/-- What is in a container of the original is the same in the larger heap. -/
theorem contents_extends {h' : Heap} (hser : Serializable fmt h v) (hext : Extends h h')
    (hr : PartOf h v r) : contents h' r = contents h r := by
  obtain ⟨o, ho, -⟩ := hser r hr
  have hread : ∀ w, h.dereferenceValue w ∈ contents h r →
      h'.dereferenceValue w = h.dereferenceValue w := fun w hw =>
    hext.dereferenceValue (hser.solid (hr.within hw))
  rw [contents, contents, ho, hext.get? ho]
  cases o with
  | array a => exact List.map_congr_left fun w hw => hread w (mem_contents_array ho hw)
  | hash t =>
    refine List.flatMap_congr fun e he => ?_
    obtain ⟨hk, hv⟩ := mem_contents_hash ho he
    rw [hread _ hk, hread _ hv]
  | _ => rfl

/-- The original is the same data structure in the larger heap. -/
theorem partOf_of_extends {h' : Heap} (hser : Serializable fmt h v) (hext : Extends h h')
    (hr : PartOf h' v r) : PartOf h v r := by
  refine hr.mem_of_closed (M := {r | PartOf h v r}) ?_ ?_
  · intro q hq
    exact .root ((hext.dereferenceValue (hser.solid (within_self h v))).symm.trans hq)
  · intro a ha b hb
    rw [successors, contents_extends hser hext ha] at hb
    exact Graph.Reach.step ha hb

theorem Image.paired {h' : Heap} {R : Ref → Ref → Prop} {w w' : Value} (hext : Extends h h')
    (hw : Solid h w) (hi : Image h R w w') :
    isContainer h' w' = false ∨ ∃ q q', w' = .obj q' ∧ R q q' := by
  cases hi with
  | leaf hv => exact .inl ((hext.isContainer hw).trans hv)
  | node _ hr => exact .inr ⟨_, _, rfl, hr⟩

/-- A container in a filled copy is a copy. -/
theorem paired_of_filled (hser : Serializable fmt h v) (hs : Copying h v s)
    (hfilled : ∀ r r', s.Pairs r r' → Filled fmt h s.vm.objects s.Pairs r r')
    (hr : s.Pairs r r') {w : Value} (hw : w ∈ contents s.vm.objects r') :
    isContainer s.vm.objects w = false ∨ ∃ q q', w = .obj q' ∧ s.Pairs q q' := by
  have hpart := (hs.source r r' hr).1
  have himaged : ∀ {x x'}, h.dereferenceValue x ∈ contents h r →
      Image h s.Pairs (h.dereferenceValue x) x' →
      isContainer s.vm.objects (s.vm.objects.dereferenceValue x') = false ∨
        ∃ q q', s.vm.objects.dereferenceValue x' = .obj q' ∧ s.Pairs q q' := by
    intro x x' hx hi
    have hsolid := hser.solid (hpart.within hx)
    rw [hi.dereferenceValue hs.grown hfilled hsolid]
    exact hi.paired hs.grown hsolid
  cases hfilled r r' hr with
  | array ho ho' hroom helements =>
    rw [contents, ho'] at hw
    obtain ⟨x', hx', rfl⟩ := List.mem_map.1 hw
    obtain ⟨x, hx, hi⟩ := exists_of_mem_right helements hx'
    exact himaged (mem_contents_array ho hx) hi
  | @hash t t' d es ho ho' hmode horder hmap hentries =>
    obtain ⟨o, ho₀, hdata⟩ := hser r hpart
    obtain rfl := Option.some.inj (ho.symm.trans ho₀)
    obtain ⟨-, fs, hfs⟩ := hdata
    rw [contents, ho'] at hw
    obtain ⟨e', he', hw⟩ := List.mem_flatMap.1 hw
    obtain ⟨e, he, hkey, hi⟩ := exists_of_mem_right hentries (horder.perm.mem_iff.2 he')
    obtain ⟨-, hvalue⟩ := mem_contents_hash ho (mem_of_walked hfs he)
    rcases List.mem_cons.1 hw with rfl | hw
    · -- a key is a string
      obtain ⟨name, hname⟩ := Option.isSome_iff_exists.1 (hmap.label e' he')
      obtain ⟨q, x, hq, hx, -⟩ := HashObj.nameText_eq_some.1 hname
      rw [hq, Heap.dereferenceValue_of_not_cell (by rw [Heap.isCell_obj, hx]), isContainer, hx]
      exact .inl rfl
    · rw [List.mem_singleton.1 hw]
      exact himaged hvalue hi

theorem contents_of_not_container (hno : isContainer h (.obj r) = false) : contents h r = [] := by
  rw [isContainer] at hno
  rw [contents]
  split at hno
  · cases hno
  · cases hno
  · rfl

/-- The original and the copy have no container in common. -/
theorem apart_of_filled (hser : Serializable fmt h v) (hs : Copying h v s)
    (hfilled : ∀ r r', s.Pairs r r' → Filled fmt h s.vm.objects s.Pairs r r')
    (himage : Image h s.Pairs (h.dereferenceValue v) v') (hr : PartOf s.vm.objects v r)
    (hr' : PartOf s.vm.objects v' r) : isContainer s.vm.objects (.obj r) = false := by
  have hsolid := hser.solid (within_self h v)
  have hmem : isContainer s.vm.objects (.obj r) = false ∨ ∃ q, s.Pairs q r := by
    refine hr'.mem_of_closed
      (M := {r | isContainer s.vm.objects (.obj r) = false ∨ ∃ q, s.Pairs q r}) ?_ ?_
    · intro q hq
      rw [Set.mem_ofPred_eq, himage.dereferenceValue hs.grown hfilled hsolid] at hq
      rcases himage.paired hs.grown hsolid with hno | ⟨p, p', hp', hpair⟩
      · exact .inl (hq ▸ hno)
      · obtain rfl := Value.obj.inj (hq.symm.trans hp')
        exact .inr ⟨p, hpair⟩
    · rintro a (hno | ⟨q, hq⟩) b hb
      · rw [successors, contents_of_not_container hno] at hb
        cases hb
      · obtain ⟨w, hw, hwb⟩ := List.mem_filterMap.1 hb
        cases w with
        | obj x =>
          obtain rfl := Option.some.inj hwb
          rcases paired_of_filled hser hs hfilled hq hw with hno | ⟨p, p', hp', hpair⟩
          · exact .inl hno
          · obtain rfl := Value.obj.inj hp'
            exact .inr ⟨p, hpair⟩
        | _ => cases hwb
  rcases hmem with hno | ⟨q, hq⟩
  · exact hno
  · obtain ⟨o, ho, -⟩ := hser r (partOf_of_extends hser hs.grown hr)
    rw [(hs.copy q r hq).1] at ho
    cases ho

/-- If no entry is lost the copying gives a clone. -/
theorem Cloneable.clonesWell (sizeof : ObjType → ℕ) {vm : VM}
    (hser : Serializable fmt vm.objects v) (hsafe : Cloneable fmt vm.objects v) :
    ClonesWell sizeof fmt vm v := by
  obtain ⟨s, v', heq, hs, hfilled, himage⟩ := exists_cloneSerializable sizeof hser
  refine ⟨s.vm, v', s.Pairs, heq, hs.grown, himage, ?_, ?_,
    fun r r' hr => sameContents_of_filled hser hs hfilled hsafe hr, fun r r' hr => (hs.copy r r' hr).1,
    fun r hr hr' => apart_of_filled hser hs hfilled himage hr hr'⟩
  · intro r r' s' hr hr'
    have hpair := List.inj_on_of_nodup_map hs.sources hr hr' rfl
    exact congrArg Prod.snd hpair
  · intro r s' r' hr hr'
    have hpair := List.inj_on_of_nodup_map hs.copies hr hr' rfl
    exact congrArg Prod.fst hpair

/-! ### What a clone says of the entries -/

theorem Image.both {R S : Ref → Ref → Prop} {b : Ref} {w : Value}
    (hb : isContainer h (.obj b) = true) (hi : Image h R (.obj b) w) (hi' : Image h S (.obj b) w) :
    ∃ b', R b b' ∧ S b b' := by
  cases hi with
  | leaf hno => rw [hb] at hno; cases hno
  | node _ hr =>
    cases hi' with
    | leaf hno => rw [hb] at hno; cases hno
    | node _ hs => exact ⟨_, hr, hs⟩

/-- The containers that are in paired containers are paired too. -/
theorem paired_successor {R : Ref → Ref → Prop} {b : Ref} (hser : Serializable fmt h v)
    (hs : Copying h v s) (hfilled : ∀ r r', s.Pairs r r' → Filled fmt h s.vm.objects s.Pairs r r')
    (hsame : SameContents fmt h s.vm.objects R r r') (hr : s.Pairs r r')
    (hb : b ∈ successors h r) (hcont : isContainer h (.obj b) = true) :
    ∃ b', R b b' ∧ s.Pairs b b' := by
  have hpart := (hs.source r r' hr).1
  obtain ⟨w, hw, hwb⟩ := List.mem_filterMap.1 hb
  cases w with
  | obj x =>
    obtain rfl := Option.some.inj hwb
    cases hfilled r r' hr with
    | @array a a' ho ho' hroom helements =>
      rw [contents, ho] at hw
      obtain ⟨y, hy, hyx⟩ := List.mem_map.1 hw
      cases hsame with
      | array hq hq' hsame =>
        cases Option.some.inj (ho.symm.trans hq)
        cases Option.some.inj (ho'.symm.trans hq')
        obtain ⟨y', hy', hi, hi'⟩ := exists_of_mem_left (forall₂_and hsame helements) hy
        rw [hi'.dereferenceValue hs.grown hfilled
          (hser.solid (hpart.within (mem_contents_array ho hy)))] at hi
        rw [hyx] at hi hi'
        exact hi.both hcont hi'
      | hash hq => cases Option.some.inj (ho.symm.trans hq)
    | @hash t t' d es ho ho' hmode horder hmap hentries =>
      obtain ⟨o, ho₀, hdata⟩ := hser r hpart
      obtain rfl := Option.some.inj (ho.symm.trans ho₀)
      obtain ⟨⟨d₀, hd₀⟩, fs, hfs⟩ := hdata
      rw [contents, ho] at hw
      obtain ⟨e, he, hw⟩ := List.mem_flatMap.1 hw
      obtain ⟨name, hname⟩ := Option.isSome_iff_exists.1 (hd₀.label e he)
      rcases List.mem_cons.1 hw with hkey | hw
      · -- a key is a string
        obtain ⟨q, y, hq, hy, -⟩ := HashObj.nameText_eq_some.1 hname
        rw [hq, Heap.dereferenceValue_of_not_cell (by rw [Heap.isCell_obj, hy])] at hkey
        rw [hkey, isContainer, hy] at hcont
        cases hcont
      · have hvalue := List.mem_singleton.1 hw
        cases hsame with
        | array hq => cases Option.some.inj (ho.symm.trans hq)
        | hash hq hq' hmode' hsame hperm =>
          cases Option.some.inj (ho.symm.trans hq)
          cases Option.some.inj (ho'.symm.trans hq')
          -- the entry is visible, so the copy has an entry with its name
          have hvisible : e ∈ visible fmt h t := by
            refine List.mem_filter.2 ⟨(inOrder_perm fmt h hfs).mem_iff.2 he, ?_⟩
            simp only [ne_eq, decide_not, Bool.not_eq_true', decide_eq_false_iff_not]
            intro hnull
            rw [hnull, Heap.dereferenceValue_of_not_cell rfl] at hvalue
            cases hvalue
          obtain ⟨e₁, he₁, hnames, hi⟩ := exists_of_mem_left hsame hvisible
          have hlive₁ := (inOrder_perm fmt s.vm.objects horder).mem_iff.1
            (List.mem_of_mem_filter (hperm.mem_iff.1 he₁))
          -- which is the copy of an entry with its name, that is, of the entry itself
          obtain ⟨e₂, he₂, hkey₂, hi'⟩ :=
            exists_of_mem_right hentries (horder.perm.mem_iff.2 hlive₁)
          have hlive₂ := mem_of_walked hfs he₂
          obtain ⟨name₂, hname₂⟩ := Option.isSome_iff_exists.1 (hd₀.label e₂ hlive₂)
          have hsome : HashObj.nameText h e.key = HashObj.nameText h e₂.key := by
            rw [← hnames, hkey₂, hs.grown.keepsStrings.nameText hname₂]
            exact hname₂.symm
          obtain rfl := List.inj_on_of_nodup_map hd₀.distinct he hlive₂ hsome
          rw [hi'.dereferenceValue hs.grown hfilled
            (hser.solid (hpart.within (mem_contents_hash ho he).2))] at hi
          rw [← hvalue] at hi hi'
          exact hi.both hcont hi'
  | _ => cases hwb

/-- A container is paired with the copy that was made of it. -/
theorem IsClone.paired {R : Ref → Ref → Prop} (hclone : IsClone fmt h s.vm.objects v v' R)
    (hser : Serializable fmt h v) (hs : Copying h v s)
    (hfilled : ∀ r r', s.Pairs r r' → Filled fmt h s.vm.objects s.Pairs r r')
    (himage : Image h s.Pairs (h.dereferenceValue v) v') (hr : PartOf h v r) :
    isContainer h (.obj r) = true → ∃ r', R r r' ∧ s.Pairs r r' := by
  refine hr.mem_of_closed
    (M := {r | isContainer h (.obj r) = true → ∃ r', R r r' ∧ s.Pairs r r'}) ?_ ?_
  · intro q hq hcont
    have hroot := hclone.root
    rw [Set.mem_ofPred_eq] at hq
    rw [hq] at hroot himage
    exact hroot.both hcont himage
  · intro a ha b hb hcont
    have ha' : isContainer h (.obj a) = true := by
      by_contra hno
      rw [successors, contents_of_not_container (by simpa using hno)] at hb
      cases hb
    obtain ⟨a', hR, hpair⟩ := ha ha'
    exact paired_successor hser hs hfilled (hclone.contents a a' hR) hpair hb hcont

/-- If the copying gives a clone no entry is lost. -/
theorem ClonesWell.cloneable {sizeof : ObjType → ℕ} {vm : VM} (hser : Serializable fmt vm.objects v)
    (hclones : ClonesWell sizeof fmt vm v) : Cloneable fmt vm.objects v := by
  obtain ⟨vm', v'', R, heq', hclone⟩ := hclones
  obtain ⟨s, v', heq, hs, hfilled, himage⟩ := exists_cloneSerializable sizeof hser
  obtain ⟨rfl, rfl⟩ := Prod.mk.inj (Option.some.inj (heq.symm.trans heq'))
  intro r t hpart ho
  obtain ⟨r', hR, hpair⟩ := hclone.paired hser hs hfilled himage hpart (isContainer_hash ho)
  obtain ⟨o, ho₀, hdata⟩ := hser r hpart
  obtain rfl := Option.some.inj (ho.symm.trans ho₀)
  obtain ⟨-, fs, hfs⟩ := hdata
  cases hfilled r r' hpair with
  | array hq => cases Option.some.inj (ho.symm.trans hq)
  | @hash t₁ t' d es hq hq' hmode horder hmap hentries =>
    cases Option.some.inj (ho.symm.trans hq)
    cases hclone.contents r r' hR with
    | array hp => cases Option.some.inj (ho.symm.trans hp)
    | hash hp hp' _ hsame hperm =>
      cases Option.some.inj (ho.symm.trans hp)
      cases Option.some.inj (hq'.symm.trans hp')
      -- the copy has as many visible entries as there are entries in it
      have hcount : (visible fmt s.vm.objects t').length = es.length := by
        rw [← hperm.length_eq, ← hsame.length_eq, ← hentries.length_eq, length_walked _ _ hfs]
        exact (HashObj.visibleCount_eq
          (HashObj.ordered_spec fmt _ hfs.sized hfs.nodup_sequence).2.1).symm
      rw [(horder.perm.trans (inOrder_perm fmt s.vm.objects horder).symm).length_eq, visible,
        List.length_filter_eq_length_iff] at hcount
      intro e he hnull
      obtain ⟨e', he', -, hi⟩ := exists_of_mem_left hentries he
      have hlive := (inOrder_perm fmt s.vm.objects horder).mem_iff.2 (horder.perm.mem_iff.1 he')
      have hheld := hcount e' hlive
      rw [hi.eq_null.2 hnull] at hheld
      cases hheld

end Clone

/-! ### Two data structures -/

/-- A number formatting. -/
def plainFormat : Printf := ⟨fun _ => [], fun _ => []⟩

/-- An array that is its own element. -/
def cycleVM : VM := { objects := [⟨0, false, .array { elements := [.obj 0], count := 1 }⟩] }

/-- The names `a` and `b`. -/
def twoNames : Heap := [⟨1, false, .string ⟨ascii "a", 0⟩⟩, ⟨2, false, .string ⟨ascii "b", 0⟩⟩]

/-- An ordered hash in which `a` holds null and `b` holds a number. -/
def nullFirst : HashObj :=
  (({ orderMode := 1 } : HashObj).set plainFormat twoNames (.obj 1) .null).set plainFormat twoNames
    (.obj 2) (.num 1)

def nullFirstVM : VM := { objects := ⟨0, false, .hash nullFirst⟩ :: twoNames }

theorem nullFirst_isData : IsData plainFormat nullFirstVM.objects (.hash nullFirst) := by
  have ha : HashObj.nameText twoNames (.obj 1) = some (ascii "a") := by decide
  have hb : HashObj.nameText twoNames (.obj 2) = some (ascii "b") := by decide
  have hempty : HashObj.Refines (HashObj.nameLabels plainFormat twoNames) { orderMode := 1 } _ :=
    .empty rfl rfl
  have hone := hempty.set_name ha .null
  have hstart : HashObj.InOrder { orderMode := 1 } [] :=
    ⟨⟨.inl rfl, rfl⟩, List.Perm.refl _, List.Pairwise.nil, by simp⟩
  obtain ⟨⟨m, horder⟩, -⟩ := hstart.set_name hempty ha rfl .null
  obtain ⟨⟨n, horder⟩, -⟩ := horder.set_name hone hb (by
    rw [Function.update_of_ne (by decide)]) (.num 1)
  have hkeeps : HashObj.KeepsStrings twoNames nullFirstVM.objects := by
    intro r s hr
    rw [nullFirstVM, Heap.get?_cons, if_neg, hr]
    rintro rfl
    cases hr
  exact ⟨⟨_, (hone.set_name hb (.num 1)).rename hkeeps⟩, _, horder⟩

theorem nullFirst_serializable : Serializable plainFormat nullFirstVM.objects (.obj 0) := by
  intro r hr
  have hle : r ≤ 2 := by
    refine hr.mem_of_closed (M := {r | r ≤ 2}) ?_ ?_
    · rintro q hq
      rw [Set.mem_ofPred_eq, ← Value.obj.inj hq]
      exact Nat.zero_le 2
    · intro a ha b hb
      have hall : ∀ a ≤ 2, ∀ b ∈ successors nullFirstVM.objects a, b ≤ 2 := by decide
      exact hall a ha b hb
  have hsmall : ∀ n : ℕ, n ≤ 2 → n = 0 ∨ n = 1 ∨ n = 2 := by omega
  obtain rfl | rfl | rfl := hsmall r hle
  · exact ⟨_, rfl, nullFirst_isData⟩
  · exact ⟨_, rfl, trivial⟩
  · exact ⟨_, rfl, trivial⟩

end Stdlib

end Slp
