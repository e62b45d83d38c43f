import Mathlib.Order.WellFounded
import Mathlib.Data.Fintype.Order
import Slp.Graph.Marking

/-!
# The leaves of an unfolded graph

A node of the graph is a leaf or it has a list of children.  The trees below a list of nodes have a
list of leaves, from left to right and with repetitions, exactly if no node below them is below itself
(`exists_leaves_iff`).

## Main definitions

* `Leaves children vs ls` : the leaves below the nodes `vs` are `ls`.
* `Acyclic children vs` : nothing below `vs` is below itself.
-/

namespace Slp

namespace Graph

variable {α : Type*} (children : α → Option (List α))

/-- The leaves of the trees below a list of nodes, from left to right. -/
inductive Leaves : List α → List α → Prop where
  | nil : Leaves [] []
  | leaf {v : α} {vs ls : List α} (hv : children v = none) (hvs : Leaves vs ls) :
    Leaves (v :: vs) (v :: ls)
  | node {v : α} {cs vs ls ls' : List α} (hv : children v = some cs) (hcs : Leaves cs ls)
      (hvs : Leaves vs ls') : Leaves (v :: vs) (ls ++ ls')

/-- The children of a node; a leaf has none. -/
def kids (v : α) : List α := (children v).getD []

/-- The second node is a child of the first. -/
def Child (v w : α) : Prop := w ∈ kids children v

/-- A node at or below one of a list. -/
def Below (vs : List α) (v : α) : Prop := Reach (kids children) {v | v ∈ vs} v

/-- No node at or below the list is below itself. -/
def Acyclic (vs : List α) : Prop :=
  ∀ v, Below children vs v → ¬Relation.TransGen (Child children) v v

variable {children} {vs ls ls' : List α} {v w : α}

/-! ### Below -/

theorem Below.head : Below children (v :: vs) v := .root List.mem_cons_self

theorem Below.tail (h : Below children vs w) : Below children (v :: vs) w := by
  obtain ⟨r, hr, hw⟩ := h
  exact ⟨r, List.mem_cons_of_mem _ hr, hw⟩

theorem Below.kids (h : Below children (kids children v) w) : Below children (v :: vs) w := by
  obtain ⟨r, hr, hw⟩ := h
  exact ⟨v, List.mem_cons_self, hw.head hr⟩

/-- What is below a list is its first node, below that, or below the others. -/
theorem below_cons :
    Below children (v :: vs) w ↔ w = v ∨ Below children (Graph.kids children v) w ∨ Below children vs w := by
  constructor
  · rintro ⟨r, hr, hw⟩
    rcases List.mem_cons.1 hr with rfl | hr
    · rcases hw.cases_head with rfl | ⟨c, hc, hw⟩
      · exact .inl rfl
      · exact .inr (.inl ⟨c, hc, hw⟩)
    · exact .inr (.inr ⟨r, hr, hw⟩)
  · rintro (rfl | h | h)
    · exact .head
    · exact h.kids
    · exact h.tail

/-- What is below the members of a set that is closed under children is in the set. -/
theorem Below.mem {S : List α} (hu : Below children vs v) (hvs : ∀ v ∈ vs, v ∈ S)
    (hS : ∀ v ∈ S, ∀ w ∈ Graph.kids children v, w ∈ S) : v ∈ S := by
  obtain ⟨r, hr, hu⟩ := hu
  induction hu with
  | refl => exact hvs r hr
  | tail _ hw ih => exact hS _ ih _ hw

theorem not_below_nil : ¬Below children [] w := by
  rintro ⟨r, hr, -⟩
  cases hr

theorem kids_of_none (hv : children v = none) : kids children v = [] := by rw [kids, hv]; rfl

theorem kids_of_some {cs : List α} (hv : children v = some cs) : kids children v = cs := by
  rw [kids, hv]
  rfl

/-! ### The leaves -/

theorem Leaves.append {us : List α} (hus : Leaves children us ls) (hvs : Leaves children vs ls') :
    Leaves children (us ++ vs) (ls ++ ls') := by
  induction hus with
  | nil => exact hvs
  | leaf hv _ ih => exact .leaf hv ih
  | node hv hcs _ _ ih => exact List.append_assoc .. ▸ .node hv hcs ih

/-- The leaves are determined. -/
theorem Leaves.unique (h : Leaves children vs ls) (h' : Leaves children vs ls') : ls = ls' := by
  induction h generalizing ls' with
  | nil => cases h'; rfl
  | leaf hv _ ih =>
    cases h' with
    | leaf _ hvs => rw [ih hvs]
    | node hv' => rw [hv] at hv'; cases hv'
  | node hv _ _ ihcs ihvs =>
    cases h' with
    | leaf hv' => rw [hv] at hv'; cases hv'
    | node hv' hcs hvs =>
      rw [hv] at hv'
      cases hv'
      rw [ihcs hcs, ihvs hvs]

/-- The leaves are the nodes below without children. -/
theorem Leaves.mem_iff (h : Leaves children vs ls) :
    w ∈ ls ↔ Below children vs w ∧ children w = none := by
  induction h with
  | nil => exact iff_of_false List.not_mem_nil fun h => not_below_nil h.1
  | @leaf v vs ls hv _ ih =>
    rw [List.mem_cons, ih, below_cons, kids_of_none hv]
    constructor
    · rintro (rfl | ⟨hbelow, hw⟩)
      · exact ⟨.inl rfl, hv⟩
      · exact ⟨.inr (.inr hbelow), hw⟩
    · rintro ⟨rfl | hbelow | hbelow, hw⟩
      · exact .inl rfl
      · exact absurd hbelow not_below_nil
      · exact .inr ⟨hbelow, hw⟩
  | @node v cs vs ls ls' hv _ _ ihcs ihvs =>
    rw [List.mem_append, ihcs, ihvs, below_cons, kids_of_some hv]
    constructor
    · rintro (⟨hbelow, hw⟩ | ⟨hbelow, hw⟩)
      · exact ⟨.inr (.inl hbelow), hw⟩
      · exact ⟨.inr (.inr hbelow), hw⟩
    · rintro ⟨rfl | hbelow | hbelow, hw⟩
      · rw [hv] at hw
        cases hw
      · exact .inl ⟨hbelow, hw⟩
      · exact .inr ⟨hbelow, hw⟩

/-! ### Cycles -/

/-- Every way down from a node with leaves ends. -/
theorem Leaves.acc (h : Leaves children vs ls) : ∀ v ∈ vs, Acc (flip (Child children)) v := by
  induction h with
  | nil => nofun
  | @leaf v vs ls hv _ ih =>
    refine List.forall_mem_cons.2 ⟨.intro v fun w hw => ?_, ih⟩
    rw [flip, Child, kids_of_none hv] at hw
    cases hw
  | @node v cs vs ls ls' hv _ _ ihcs ihvs =>
    refine List.forall_mem_cons.2 ⟨.intro v fun w hw => ?_, ihvs⟩
    rw [flip, Child, kids_of_some hv] at hw
    exact ihcs w hw

theorem acc_of_below (h : Acc (flip (Child children)) v)
    (hw : Relation.ReflTransGen (Child children) v w) : Acc (flip (Child children)) w := by
  induction hw with
  | refl => exact h
  | tail _ hchild ih => exact ih.inv hchild

/-- A node on a cycle has a way down that does not end. -/
theorem not_cycle_of_acc (h : Acc (flip (Child children)) v) :
    ¬Relation.TransGen (Child children) v v := by
  have htrans := h.transGen
  induction htrans with
  | intro v _ ih =>
    intro hcycle
    exact ih v (Relation.transGen_swap.2 hcycle) h hcycle

theorem Leaves.acyclic (h : Leaves children vs ls) : Acyclic children vs := by
  rintro v ⟨r, hr, hv⟩
  exact not_cycle_of_acc (acc_of_below (h.acc r hr) hv)

/-- There is no cycle where every child has a lower rank. -/
theorem acyclic_of_rank {S : List α} (rank : α → ℕ) (hvs : ∀ v ∈ vs, v ∈ S)
    (hS : ∀ v ∈ S, ∀ w ∈ kids children v, w ∈ S) (hrank : ∀ v ∈ S, ∀ w ∈ kids children v, rank w < rank v) :
    Acyclic children vs := by
  intro v hv hcycle
  have hlt : ∀ w, Relation.TransGen (Child children) v w → w ∈ S ∧ rank w < rank v := by
    intro w hw
    induction hw with
    | single hw => exact ⟨hS v (hv.mem hvs hS) _ hw, hrank v (hv.mem hvs hS) _ hw⟩
    | tail _ hw ih => exact ⟨hS _ ih.1 _ hw, (hrank _ ih.1 _ hw).trans ih.2⟩
  exact Nat.lt_irrefl _ (hlt v hcycle).2

/-- With finitely many inner nodes, every way down ends if there is no cycle. -/
theorem Acyclic.acc (hfin : {v | (children v).isSome}.Finite) (h : Acyclic children vs)
    (hv : Below children vs v) : Acc (flip (Child children)) v := by
  let inner := {v // (children v).isSome ∧ Below children vs v}
  have hfinite : Finite inner := (hfin.subset fun v hv => hv.1).to_subtype
  -- the order of the inner nodes by what is below them
  let below (w v : inner) := Relation.TransGen (Child children) v.1 w.1
  have htrans : IsTrans inner below := ⟨fun _ _ _ h₁ h₂ => h₂.trans h₁⟩
  have hirrefl : Std.Irrefl below := ⟨fun v hcycle => h v.1 v.2.2 hcycle⟩
  have hwf : WellFounded below := Finite.wellFounded_of_trans_of_irrefl _
  have hinner : ∀ v : inner, Acc (flip (Child children)) v.1 := by
    intro v
    induction v using hwf.induction with
    | _ v ih =>
      refine .intro _ fun w hw => ?_
      cases hkids : children w with
      | some cs =>
        exact ih ⟨w, by rw [hkids]; rfl, v.2.2.step hw⟩ (.single hw)
      | none =>
        refine .intro _ fun u hu => ?_
        rw [flip, Child, kids_of_none hkids] at hu
        cases hu
  cases hkids : children v with
  | some cs => exact hinner ⟨v, by rw [hkids]; rfl, hv⟩
  | none =>
    refine .intro _ fun u hu => ?_
    rw [flip, Child, kids_of_none hkids] at hu
    cases hu

theorem exists_leaves_of_forall (h : ∀ v ∈ vs, ∃ ls, Leaves children [v] ls) :
    ∃ ls, Leaves children vs ls := by
  induction vs with
  | nil => exact ⟨[], .nil⟩
  | cons v vs ih =>
    obtain ⟨ls, hls⟩ := h v List.mem_cons_self
    obtain ⟨ls', hls'⟩ := ih fun w hw => h w (List.mem_cons_of_mem v hw)
    exact ⟨ls ++ ls', hls.append hls'⟩

theorem exists_leaves_of_acc (h : Acc (flip (Child children)) v) : ∃ ls, Leaves children [v] ls := by
  induction h with
  | intro v _ ih =>
    cases hkids : children v with
    | none => exact ⟨[v], .leaf hkids .nil⟩
    | some cs =>
      obtain ⟨ls, hls⟩ := exists_leaves_of_forall fun w hw => ih w (by rwa [flip, Child, kids_of_some hkids])
      exact ⟨ls ++ [], .node hkids hls .nil⟩

/-- The trees below a list of nodes are finite exactly if there is no cycle below it. -/
theorem exists_leaves_iff (hfin : {v | (children v).isSome}.Finite) :
    (∃ ls, Leaves children vs ls) ↔ Acyclic children vs := by
  constructor
  · rintro ⟨ls, h⟩
    exact h.acyclic
  · intro h
    exact exists_leaves_of_forall fun v hv => exists_leaves_of_acc (h.acc hfin (.root hv))

end Graph

end Slp
