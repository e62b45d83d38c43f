import Slp.Stdlib.CloneLaw

/-!
# Copies of copies

`SameData` : two values of a heap are the same data structure up to scalar cells.  Some relation
pairs their arrays and hashes one to one, with the same contents.

* `SameData.trans`, `SameData.extends` : the relation is transitive, and it stays when objects are
  added to the heap;
* `exists_snapshot` : **a data structure no entry of which is lost is copied to the same data
  structure, and no entry is lost from the copy**, so that the copy can be copied in turn.
-/

namespace Slp

namespace Stdlib

section Heaps

variable {fmt : Printf} {h h' k k' : Heap} {v v' w w' : Value} {r r' : Ref} {o : Obj} {t : HashObj}
  {R R' S : Ref → Ref → Prop}

/-! ### Data structures in heaps that grow -/

theorem IsData.extends (hh : Extends h h') (hd : IsData fmt h o) : IsData fmt h' o := by
  cases o with
  | hash t => exact ⟨hd.1.imp fun d hd => hd.rename hh.keepsStrings, hd.2⟩
  | array a => exact hd
  | closure c => exact hd
  | scalarCell v watch => exact hd
  | _ => trivial

theorem Serializable.extends (hh : Extends h h') (hv : Serializable fmt h v) :
    Serializable fmt h' v := by
  intro r hr
  obtain ⟨o, ho, hd⟩ := hv r (partOf_of_extends hv hh hr)
  exact ⟨o, hh.get? ho, hd.extends hh⟩

/-- The order of a table is the same in the larger heap. -/
theorem inOrder_extends (hh : Extends h h') (ht : IsData fmt h (.hash t)) :
    t.inOrder fmt h' = t.inOrder fmt h := by
  obtain ⟨⟨d, hd⟩, -⟩ := ht
  unfold HashObj.inOrder HashObj.ordered
  congr 2
  funext i
  exact orderedIndex_extends hh.keepsStrings
    (fun e he => Option.isSome_iff_exists.1 (hd.label e he)) i

theorem visible_extends (hh : Extends h h') (ht : IsData fmt h (.hash t)) :
    visible fmt h' t = visible fmt h t := by
  rw [visible, visible, inOrder_extends hh ht]

theorem Cloneable.extends (hh : Extends h h') (hv : Serializable fmt h v)
    (hsafe : Cloneable fmt h v) : Cloneable fmt h' v := by
  intro r t hr ht e he
  have hpart := partOf_of_extends hv hh hr
  obtain ⟨o, ho, hd⟩ := hv r hpart
  obtain rfl := Option.some.inj (ht.symm.trans (hh.get? ho))
  rw [walked, inOrder_extends hh hd] at he
  obtain ⟨-, fs, hfs⟩ := hd
  have hlive := mem_of_walked hfs he
  rw [hh.dereferenceValue (hv.solid (hpart.within (mem_contents_hash ho hlive).2))]
  exact hsafe r t hpart ho e he

/-! ### The relation -/

/-- `R` pairs the containers of two data structures of a heap. -/
structure Pairing (fmt : Printf) (h : Heap) (v w : Value) (R : Ref → Ref → Prop) : Prop where
  root : Image h R (h.dereferenceValue v) (h.dereferenceValue w)
  functional : ∀ r r' s', R r r' → R r s' → r' = s'
  injective : ∀ r s r', R r r' → R s r' → r = s
  contents : ∀ r r', R r r' → SameContents fmt h h R r r'

/-- The values are the same data structure up to scalar cells. -/
def SameData (fmt : Printf) (h : Heap) (v w : Value) : Prop := ∃ R, Pairing fmt h v w R

theorem SameContents.isContainer (hc : SameContents fmt h k R r r') :
    Stdlib.isContainer k (.obj r') = true := by
  cases hc with
  | array _ hr' => exact isContainer_array hr'
  | hash _ hr' => exact isContainer_hash hr'

/-- Pairs of values with their images in lists of which all members are known. -/
theorem forall₂_mem {α β : Type*} {P : α → β → Prop} {l : List α} {u : List β}
    (hp : List.Forall₂ P l u) : List.Forall₂ (fun a b => a ∈ l ∧ b ∈ u ∧ P a b) l u := by
  induction hp with
  | nil => exact .nil
  | cons hp _ ih =>
    exact .cons ⟨List.mem_cons_self, List.mem_cons_self, hp⟩ (ih.imp fun a b hab =>
      ⟨List.mem_cons_of_mem _ hab.1, List.mem_cons_of_mem _ hab.2.1, hab.2.2⟩)

/-- The pairs of parts of two data structures. -/
def Between (h : Heap) (v : Value) (k : Heap) (w : Value) (R : Ref → Ref → Prop) (r r' : Ref) :
    Prop := R r r' ∧ PartOf h v r ∧ PartOf k w r'

/-- A value and its image, read in larger heaps. -/
theorem Image.extends {x x' : Value} (hv : Serializable fmt h v) (hw : Serializable fmt k w)
    (hh : Extends h h') (hk : Extends k k') (hx : Within h v x) (hx' : Within k w x')
    (hi : Image h R (h.dereferenceValue x) (k.dereferenceValue x')) :
    Image h' (Between h v k w R) (h'.dereferenceValue x) (k'.dereferenceValue x') := by
  have hsolid := hv.solid hx
  rw [hh.dereferenceValue hsolid, hk.dereferenceValue (hw.solid hx')]
  generalize hy : h.dereferenceValue x = y at hi hsolid
  generalize hy' : k.dereferenceValue x' = y' at hi
  cases hi with
  | leaf hleaf => exact .leaf ((hh.isContainer hsolid).trans hleaf)
  | node hnode hr => exact .node ((hh.isContainer hsolid).trans hnode) ⟨hr, hx _ hy, hx' _ hy'⟩

/-- The same contents are so in larger heaps. -/
theorem SameContents.extends (hv : Serializable fmt h v) (hw : Serializable fmt k w)
    (hh : Extends h h') (hk : Extends k k') (hr : PartOf h v r) (hr' : PartOf k w r')
    (hc : SameContents fmt h k R r r') :
    SameContents fmt h' k' (Between h v k w R) r r' := by
  cases hc with
  | array ha ha' helements =>
    refine .array (hh.get? ha) (hk.get? ha') ((forall₂_mem helements).imp ?_)
    rintro x x' ⟨hx, hx', hi⟩
    exact hi.extends hv hw hh hk (hr.within (mem_contents_array ha hx))
      (hr'.within (mem_contents_array ha' hx'))
  | @hash t t' es ht ht' hmode hentries hperm horder =>
    obtain ⟨o, ho, hd⟩ := hv r hr
    obtain rfl := Option.some.inj (ht.symm.trans ho)
    obtain ⟨o', ho', hd'⟩ := hw r' hr'
    obtain rfl := Option.some.inj (ht'.symm.trans ho')
    obtain ⟨⟨d, hdict⟩, fs, hfs⟩ := id hd
    obtain ⟨⟨d', hdict'⟩, fs', hfs'⟩ := id hd'
    refine .hash (hh.get? ht) (hk.get? ht') hmode (?_ : List.Forall₂ _ _ es) ?_ ?_
    · rw [visible_extends hh hd]
      refine (forall₂_mem hentries).imp ?_
      rintro e e' ⟨he, he', hname, hi⟩
      have hlive := (inOrder_perm fmt h hfs).mem_iff.1 (List.mem_of_mem_filter he)
      have hlive' := (inOrder_perm fmt k hfs').mem_iff.1
        (List.mem_of_mem_filter (hperm.mem_iff.1 he'))
      obtain ⟨name, hsome⟩ := Option.isSome_iff_exists.1 (hdict.label e hlive)
      obtain ⟨name', hsome'⟩ := Option.isSome_iff_exists.1 (hdict'.label e' hlive')
      refine ⟨?_, hi.extends hv hw hh hk (hr.within (mem_contents_hash ht hlive).2)
        (hr'.within (mem_contents_hash ht' hlive').2)⟩
      rw [hk.keepsStrings.nameText hsome', hh.keepsStrings.nameText hsome]
      exact hsome'.symm.trans (hname.trans hsome)
    · rwa [visible_extends hk hd']
    · rwa [visible_extends hk hd']

/-- What is the same data structure stays so when objects are added. -/
theorem SameData.extends (hh : Extends h h') (hv : Serializable fmt h v)
    (hw : Serializable fmt h w) (hs : SameData fmt h v w) : SameData fmt h' v w := by
  obtain ⟨R, hroot, hfun, hinj, hcontents⟩ := hs
  exact ⟨Between h v h w R, hroot.extends hv hw hh hh (within_self h v) (within_self h w),
    fun r r' s' hr hs => hfun r r' s' hr.1 hs.1, fun r s r' hr hs => hinj r s r' hr.1 hs.1,
    fun r r' hr => (hcontents r r' hr.1).extends hv hw hh hh hr.2.1 hr.2.2⟩

end Heaps

section Trans

variable {fmt : Printf} {h : Heap} {u v w : Value} {r s t : Ref} {R S : Ref → Ref → Prop}

theorem Image.trans (hR : ∀ r s, R r s → isContainer h (.obj s) = true) (hi : Image h R u v)
    (hi' : Image h S v w) : Image h (Relation.Comp R S) u w := by
  cases hi with
  | leaf hv =>
    cases hi' with
    | leaf _ => exact .leaf hv
    | node hn _ =>
      rw [hv] at hn
      cases hn
  | node hv hr =>
    cases hi' with
    | leaf hn =>
      rw [hR _ _ hr] at hn
      cases hn
    | node _ hs => exact .node hv ⟨_, hr, hs⟩

theorem forall₂_trans {α β γ : Type*} {P : α → β → Prop} {Q : β → γ → Prop} {T : α → γ → Prop}
    (hT : ∀ a b c, P a b → Q b c → T a c) {l : List α} {m : List β} {n : List γ}
    (hp : List.Forall₂ P l m) (hq : List.Forall₂ Q m n) : List.Forall₂ T l n := by
  induction hp generalizing n with
  | nil =>
    cases hq
    exact .nil
  | cons hab _ ih =>
    cases hq with
    | cons hbc hq => exact .cons (hT _ _ _ hab hbc) (ih hq)

theorem SameContents.trans (hR : ∀ r s, R r s → Stdlib.isContainer h (.obj s) = true)
    (hc : SameContents fmt h h R r s) (hc' : SameContents fmt h h S s t) :
    SameContents fmt h h (Relation.Comp R S) r t := by
  cases hc with
  | array hr hs helements =>
    cases hc' with
    | array hs' ht helements' =>
      cases Option.some.inj (hs.symm.trans hs')
      exact .array hr ht (forall₂_trans (fun _ _ _ hi hi' => hi.trans hR hi') helements helements')
    | hash hs' => cases Option.some.inj (hs.symm.trans hs')
  | @hash t₁ t₂ es hr hs hmode hentries hperm horder =>
    cases hc' with
    | array hs' => cases Option.some.inj (hs.symm.trans hs')
    | @hash t₂' t₃ es' hs' ht hmode' hentries' hperm' horder' =>
      cases Option.some.inj (hs.symm.trans hs')
      have hentry : ∀ e₁ e₂ e₃, SameEntry h h R e₁ e₂ → SameEntry h h S e₂ e₃ →
          SameEntry h h (Relation.Comp R S) e₁ e₃ := fun _ _ _ he he' =>
        ⟨he'.1.trans he.1, he.2.trans hR he'.2⟩
      by_cases hno : t₁.orderMode = 0
      · -- the entries of the second hash come in any order
        obtain ⟨m, hm, hmperm⟩ := List.perm_comp_forall₂ hperm hentries'
        exact .hash hr ht (hmode'.trans hmode) (forall₂_trans hentry hentries hm)
          (hmperm.trans hperm') fun hne => absurd hno hne
      · rw [horder hno] at hentries
        exact .hash hr ht (hmode'.trans hmode) (forall₂_trans hentry hentries hentries') hperm'
          fun _ => horder' (hmode ▸ hno)

theorem SameData.trans (hs : SameData fmt h u v) (hs' : SameData fmt h v w) :
    SameData fmt h u w := by
  obtain ⟨R, hroot, hfun, hinj, hcontents⟩ := hs
  obtain ⟨S, hroot', hfun', hinj', hcontents'⟩ := hs'
  have hR : ∀ r s, R r s → isContainer h (.obj s) = true := fun r s hr =>
    (hcontents r s hr).isContainer
  refine ⟨Relation.Comp R S, hroot.trans hR hroot', ?_, ?_, ?_⟩
  · rintro r t t' ⟨s, hr, hs⟩ ⟨s', hr', hs'⟩
    obtain rfl := hfun r s s' hr hr'
    exact hfun' s t t' hs hs'
  · rintro r r' t ⟨s, hr, hs⟩ ⟨s', hr', hs'⟩
    obtain rfl := hinj' s s' t hs hs'
    exact hinj r r' s hr hr'
  · rintro r t ⟨s, hr, hs⟩
    exact (hcontents r s hr).trans hR (hcontents' s t hs)

end Trans

/-! ### Copies -/

section Copies

variable {fmt : Printf} {h : Heap} {v v' : Value} {s : CloneState} {r r' : Ref}

/-- An object of a copy is itself a copy, or it is an object of the original that is no container. -/
def Copied (fmt : Printf) (h : Heap) (s : CloneState) (r : Ref) : Prop :=
  (∃ q, s.Pairs q r) ∨ ∃ o, h.get? r = some o ∧ IsData fmt h o ∧ isContainer h (.obj r) = false

theorem Image.copied {x x' : Value} (hser : Serializable fmt h v) (hx : Within h v x)
    (hi : Image h s.Pairs (h.dereferenceValue x) x') (hr : x' = .obj r) : Copied fmt h s r := by
  generalize hy : h.dereferenceValue x = y at hi
  cases hi with
  | leaf hleaf =>
    rw [hr] at hy hleaf
    obtain ⟨o, ho, hd⟩ := hser r (hx r hy)
    exact .inr ⟨o, ho, hd, hleaf⟩
  | node _ hq =>
    obtain rfl := Value.obj.inj hr
    exact .inl ⟨_, hq⟩

/-- What is in a copy. -/
theorem copied_successors (hser : Serializable fmt h v) (hs : Copying h v s)
    (hfilled : ∀ r r', s.Pairs r r' → Filled fmt h s.vm.objects s.Pairs r r')
    (hr : s.Pairs r r') {b : Ref} (hb : b ∈ successors s.vm.objects r') : Copied fmt h s b := by
  have hpart := (hs.source r r' hr).1
  obtain ⟨w, hw, hwb⟩ := List.mem_filterMap.1 hb
  cases w with
  | obj x =>
    obtain rfl := Option.some.inj hwb
    have himaged : ∀ {y y'}, h.dereferenceValue y ∈ contents h r →
        Image h s.Pairs (h.dereferenceValue y) y' → s.vm.objects.dereferenceValue y' = .obj x →
        Copied fmt h s x := by
      intro y y' hy hi hread
      rw [hi.dereferenceValue hs.grown hfilled (hser.solid (hpart.within hy))] at hread
      exact hi.copied hser (hpart.within hy) hread
    cases hfilled r r' hr with
    | array ho ho' hroom helements =>
      rw [contents, ho'] at hw
      obtain ⟨y', hy', hread⟩ := List.mem_map.1 hw
      obtain ⟨y, hy, hi⟩ := exists_of_mem_right helements hy'
      exact himaged (mem_contents_array ho hy) hi hread
    | @hash t t' d es ho ho' hmode horder hmap hentries =>
      obtain ⟨o, ho₀, hdata⟩ := hser r hpart
      obtain rfl := Option.some.inj (ho.symm.trans ho₀)
      obtain ⟨⟨d₀, hd₀⟩, fs, hfs⟩ := hdata
      rw [contents, ho'] at hw
      obtain ⟨e', he', hw⟩ := List.mem_flatMap.1 hw
      obtain ⟨e, he, hkey, hi⟩ := exists_of_mem_right hentries (horder.perm.mem_iff.2 he')
      have hlive := mem_of_walked hfs he
      rcases List.mem_cons.1 hw with hw | hw
      · -- a key is a string of the original
        obtain ⟨name, hname⟩ := Option.isSome_iff_exists.1 (hd₀.label e hlive)
        obtain ⟨q, y, hq, hy, -⟩ := HashObj.nameText_eq_some.1 hname
        have hcell : s.vm.objects.isCell (.obj q) = false := by
          rw [Heap.isCell_obj, hs.grown.get? hy]
        rw [hkey, hq, Heap.dereferenceValue_of_not_cell hcell] at hw
        obtain rfl := Value.obj.inj hw
        exact .inr ⟨_, hy, trivial, by rw [isContainer, hy]⟩
      · exact himaged (mem_contents_hash ho hlive).2 hi (List.mem_singleton.1 hw).symm
  | _ => cases hwb

theorem copied_of_partOf (hser : Serializable fmt h v) (hs : Copying h v s)
    (hfilled : ∀ r r', s.Pairs r r' → Filled fmt h s.vm.objects s.Pairs r r')
    (himage : Image h s.Pairs (h.dereferenceValue v) v') (hr : PartOf s.vm.objects v' r) :
    Copied fmt h s r := by
  refine hr.mem_of_closed (M := {r | Copied fmt h s r}) ?_ ?_
  · intro q hq
    rw [Set.mem_ofPred_eq, himage.dereferenceValue hs.grown hfilled
      (hser.solid (within_self h v))] at hq
    exact himage.copied hser (within_self h v) hq
  · rintro a (⟨q, hq⟩ | ⟨o, ho, hd, hno⟩) b hb
    · exact copied_successors hser hs hfilled hq hb
    · rw [successors, contents_of_not_container] at hb
      · cases hb
      · rwa [isContainer, hs.grown.get? ho, ← ho, ← isContainer]

theorem serializable_copy (hser : Serializable fmt h v) (hs : Copying h v s)
    (hfilled : ∀ r r', s.Pairs r r' → Filled fmt h s.vm.objects s.Pairs r r')
    (himage : Image h s.Pairs (h.dereferenceValue v) v') : Serializable fmt s.vm.objects v' := by
  intro r hr
  rcases copied_of_partOf hser hs hfilled himage hr with ⟨q, hq⟩ | ⟨o, ho, hd, -⟩
  · cases hfilled q r hq with
    | array ho ho' hroom helements => exact ⟨_, ho', hroom⟩
    | hash ho ho' hmode horder hmap hentries => exact ⟨_, ho', ⟨_, hmap⟩, _, horder⟩
  · exact ⟨o, hs.grown.get? ho, hd.extends hs.grown⟩

/-- The entries of a copy hold what those of the original do, so that none of them holds null. -/
theorem cloneable_copy (hser : Serializable fmt h v) (hs : Copying h v s)
    (hfilled : ∀ r r', s.Pairs r r' → Filled fmt h s.vm.objects s.Pairs r r')
    (himage : Image h s.Pairs (h.dereferenceValue v) v') (hsafe : Cloneable fmt h v) :
    Cloneable fmt s.vm.objects v' := by
  intro r t hr ht e' he'
  rcases copied_of_partOf hser hs hfilled himage hr with ⟨q, hq⟩ | ⟨o, ho, -, hno⟩
  · cases hfilled q r hq with
    | array ho ho' hroom helements => cases Option.some.inj (ht.symm.trans ho')
    | @hash t₀ t' d es ho ho' hmode horder hmap hentries =>
      cases Option.some.inj (ht.symm.trans ho')
      have hpart := (hs.source q r hq).1
      obtain ⟨o, ho₀, hdata⟩ := hser q hpart
      obtain rfl := Option.some.inj (ho.symm.trans ho₀)
      obtain ⟨-, fs, hfs⟩ := hdata
      obtain ⟨e, he, -, hi⟩ := exists_of_mem_right hentries
        (horder.perm.mem_iff.2 (mem_of_walked horder he'))
      have hsolid := hser.solid (hpart.within (mem_contents_hash ho (mem_of_walked hfs he)).2)
      rw [hi.dereferenceValue hs.grown hfilled hsolid, Ne, hi.eq_null]
      exact hsafe q t₀ hpart ho e he
  · rw [isContainer, ho] at hno
    cases Option.some.inj (ht.symm.trans (hs.grown.get? ho))
    cases hno

/-- A copy is the same data structure as the original. -/
theorem sameData_copy (hser : Serializable fmt h v) (hs : Copying h v s)
    (hfilled : ∀ r r', s.Pairs r r' → Filled fmt h s.vm.objects s.Pairs r r')
    (himage : Image h s.Pairs (h.dereferenceValue v) v') (hsafe : Cloneable fmt h v) :
    SameData fmt s.vm.objects v v' := by
  have hser' := serializable_copy hser hs hfilled himage
  have hroot := himage
  rw [← himage.dereferenceValue hs.grown hfilled (hser.solid (within_self h v))] at hroot
  refine ⟨Between h v s.vm.objects v' s.Pairs, hroot.extends hser hser' hs.grown (.refl _)
    (within_self h v) (within_self _ v'), ?_, ?_, ?_⟩
  · intro r r' q hr hq
    exact congrArg Prod.snd (List.inj_on_of_nodup_map hs.sources hr.1 hq.1 rfl)
  · intro r q r' hr hq
    exact congrArg Prod.fst (List.inj_on_of_nodup_map hs.copies hr.1 hq.1 rfl)
  · intro r r' hr
    exact (sameContents_of_filled hser hs hfilled hsafe hr.1).extends hser hser' hs.grown (.refl _)
      hr.2.1 hr.2.2

/-- **A data structure no entry of which is lost is copied to the same data structure.**  The copy
can be copied in turn. -/
theorem exists_snapshot (sizeof : ObjType → ℕ) {vm : VM} (hcell : vm.objects.isCell (.obj r) = false)
    (hser : Serializable fmt vm.objects (.obj r)) (hsafe : Cloneable fmt vm.objects (.obj r)) :
    ∃ vm' r', cloneSerializable sizeof fmt vm (.obj r) = some (vm', .obj r') ∧
      Extends vm.objects vm'.objects ∧ (r' = r ∨ isContainer vm'.objects (.obj r') = true) ∧
      Serializable fmt vm'.objects (.obj r') ∧ Cloneable fmt vm'.objects (.obj r') ∧
      SameData fmt vm'.objects (.obj r) (.obj r') := by
  obtain ⟨s, v', heq, hs, hfilled, himage⟩ := exists_cloneSerializable sizeof hser
  have hread : vm.objects.dereferenceValue (.obj r) = .obj r :=
    Heap.dereferenceValue_of_not_cell hcell
  have hcopy : ∃ r', v' = .obj r' ∧ (r' = r ∨ isContainer s.vm.objects (.obj r') = true) := by
    rw [hread] at himage
    cases himage with
    | leaf => exact ⟨r, rfl, .inl rfl⟩
    | node _ hr => exact ⟨_, rfl, .inr (hfilled _ _ hr).isContainer⟩
  obtain ⟨r', rfl, hcont'⟩ := hcopy
  exact ⟨s.vm, r', heq, hs.grown, hcont', serializable_copy hser hs hfilled himage,
    cloneable_copy hser hs hfilled himage hsafe, sameData_copy hser hs hfilled himage hsafe⟩

end Copies

end Stdlib

end Slp
