import Slp.Embed.Callable
import Slp.Gc.Interning
import Slp.Graph.Linked

/-!
# The handles of a host

A host acquires, calls and releases handles in any order while the machine works and collects
(`Run`).

* `held` : the handles that have been acquired and not released, with their closures;
* `Registry` : the list of the machine consists of these handles, each once;
* `HandleLaw` : so it does, their closures are roots and survive a collection with all they refer to,
  each handle can be called and released, and the list can be emptied;
* `run_handleLaw` : **the law holds in every state of every run.**

Any work of the machine is an `Activity`: what a call does, and what natives do in it, is a part of
the run like what the host does between calls.
-/

namespace Slp

namespace Embed

open Graph Gc

/-! ### Runs -/

/-- What the machine does between two events: it makes objects, or works on those that are there. -/
inductive Activity (sizeof : ObjType → ℕ) (vm : VM) : VM → Prop
  | intern {chars : Bytes} {vm' : VM} {r : Ref}
    (h : Intern.internStringInt (sizeof .string) vm chars = some (vm', r)) : Activity sizeof vm vm'
  | track {o : Obj} (ho : o.type ≠ .string) : Activity sizeof vm (vm.alloc sizeof o).1
  | link {o : Obj} (ho : o.type ≠ .string) : Activity sizeof vm (Gc.link vm o)
  | script {vm' : VM} (h : Works vm vm') : Activity sizeof vm vm'

/-- An event of a run. -/
inductive Event where
  /-- A call of `slp_callable_acquire`, with the handle and the closure it stands for. -/
  | acquire (handle : Option (ℕ × Value))
  | release (handle : Option ℕ)
  | call (handle : ℕ) (arguments : List Value)
  | work
  | collect
  | releaseAll

/-- The handles that are acquired and not released, the last event of the run first. -/
def held : List Event → List (ℕ × Value)
  | .acquire (some handle) :: events => handle :: held events
  | .release (some a) :: events => (held events).filter fun p => p.1 ≠ a
  | .releaseAll :: _ => []
  | _ :: events => held events
  | [] => []

/-- An event, after those of `events`.  The allocator gives a block that is free; a handle is released
only while it is held. -/
inductive Step (sizeof : ObjType → ℕ) (events : List Event) (E : Embedding) :
    Event → Embedding → Prop
  | acquire {value : Value} {closureFits : Bool} {block : Option ℕ} {E' : Embedding}
    {handle : Option ℕ} (hblock : ∀ a ∈ block, E.callable? a = none)
    (h : E.acquire sizeof value closureFits block = some (E', handle)) :
    Step sizeof events E (.acquire (handle.map fun a => (a, E.target value))) E'
  | release {handle : Option ℕ} {E' : Embedding}
    (hheld : ∀ a ∈ handle, a ∈ (held events).map Prod.fst) (h : E.release handle = some E') :
    Step sizeof events E (.release handle) E'
  | call {a : ℕ} {arguments : List Value} {E' : Embedding}
    (h : E.call sizeof (some a) arguments = some (some E')) :
    Step sizeof events E (.call a arguments) E'
  | work {machine : VM} (h : Activity sizeof E.machine machine) :
    Step sizeof events E .work { E with machine }
  | collect {E' : Embedding} (h : E.collect sizeof = some E') : Step sizeof events E .collect E'
  | releaseAll {E' : Embedding} (h : E.releaseAll = some E') :
    Step sizeof events E .releaseAll E'

/-- A run from a new machine on, the last event first. -/
inductive Run (sizeof : ObjType → ℕ) : List Event → Embedding → Prop
  | start : Run sizeof [] ⟨vmNew, [], none⟩
  | step {events : List Event} {E E' : Embedding} {e : Event} (hrun : Run sizeof events E)
    (hstep : Step sizeof events E e E') : Run sizeof (e :: events) E'

/-! ### The law -/

namespace Embedding

/-- The `next` of the block at an address. -/
def next (E : Embedding) (a : ℕ) : Option ℕ := (E.callable? a).bind (·.next)

end Embedding

/-- The value is a closure or a native function. -/
def IsCallable (vm : VM) (v : Value) : Prop :=
  ∃ r o, v = .obj r ∧ vm.objects.get? r = some o ∧ (o.type = .closure ∨ o.type = .native)

/-- The list of the machine consists of the handles, and every handle stands for its closure. -/
structure Registry (E : Embedding) (handles : List (ℕ × Value)) : Prop where
  wf : WellFormed E.machine
  nodup : (handles.map Prod.fst).Nodup
  linked : Linked E.next E.callables (handles.map Prod.fst)
  block : ∀ p ∈ handles, ∃ next, E.callable? p.1 = some ⟨true, p.2, next⟩
  callable : ∀ p ∈ handles, IsCallable E.machine p.2

/-- What a host relies on. -/
structure HandleLaw (sizeof : ObjType → ℕ) (E : Embedding) (handles : List (ℕ × Value)) : Prop where
  /-- The list of the machine contains exactly the handles, each once. -/
  listed : Linked E.next E.callables (handles.map Prod.fst) ∧ (handles.map Prod.fst).Nodup
  /-- The closures of the handles are roots. -/
  roots : ∃ vm, E.marking = some vm ∧ ∀ a r, (a, .obj r) ∈ handles → r ∈ vm.rootReferences
  /-- A collection ends, and the closures and what they refer to are what they were. -/
  collects : ∃ E', E.collect sizeof = some E' ∧ ∀ a r, (a, .obj r) ∈ handles →
    ∀ x, Reach (edges E.machine.objects) {r} x →
      E'.machine.objects.get? x = E.machine.objects.get? x
  /-- A handle is called with its closure, as far as there are not too many arguments. -/
  usable : ∀ p ∈ handles, IsCallable E.machine p.2 ∧ ∀ r, p.2 = .obj r →
    ∀ arguments : List Value, arguments.length ≤ 255 →
      arguments.length + 1 ≤ stackMax - E.machine.top →
        E.call sizeof (some p.1) arguments = some (some { E with
          machine := { E.machine with stack := E.machine.stack ++ .obj r :: arguments } })
  /-- A handle can be released. -/
  releases : ∀ p ∈ handles, ∃ E', E.release (some p.1) = some E' ∧
    Linked E'.next E'.callables ((handles.map Prod.fst).erase p.1)
  /-- All handles can be released at once. -/
  releasesAll : ∃ E', E.releaseAll = some E' ∧ E'.callables = none

/-! ### The objects stay -/

section Keeps

variable {sizeof : ObjType → ℕ} {vm vm' : VM} {v : Value}

/-- Every object is still there, and of its kind. -/
def Keeps (vm vm' : VM) : Prop :=
  ∀ r o, vm.objects.get? r = some o → ∃ o', vm'.objects.get? r = some o' ∧ o'.type = o.type

theorem Keeps.refl (vm : VM) : Keeps vm vm := fun _ o hr => ⟨o, hr, rfl⟩

theorem Keeps.of_cons {c : HeapCell} (hc : c.ref = vm.objects.freshRef)
    (hobj : vm'.objects = c :: vm.objects) : Keeps vm vm' := by
  intro r o hr
  refine ⟨o, ?_, rfl⟩
  rw [hobj, Heap.get?_cons, if_neg (fun heq => Heap.ne_freshRef hr (heq.symm.trans hc)), hr]

theorem get?_of_rewrites {h h' : Heap} (hobj : List.Forall₂ Rewrites h h') {r : Ref} {o : Obj}
    (hr : h.get? r = some o) : ∃ o', h'.get? r = some o' ∧ o'.type = o.type := by
  induction hobj with
  | nil => cases hr
  | cons hc _ ih =>
    rw [Heap.get?_cons] at hr ⊢
    rw [hc.ref]
    split_ifs at hr ⊢ with heq
    · cases hr
      exact ⟨_, rfl, hc.type⟩
    · exact ih hr

theorem Activity.keeps (h : Activity sizeof vm vm') : Keeps vm vm' := by
  cases h with
  | intern h =>
    rcases Intern.internStringInt_cases h with ⟨rfl, -⟩ | ⟨-, h⟩
    · exact .refl _
    · rcases internString_cases h with rfl | ⟨_, _, rfl⟩
      · exact .refl _
      · exact .of_cons rfl rfl
  | track | link => exact .of_cons rfl rfl
  | script h => exact fun r o hr => get?_of_rewrites h.objects hr

theorem Activity.wellFormed (h : Activity sizeof vm vm') (hwf : WellFormed vm) :
    WellFormed vm' := by
  cases h with
  | intern h =>
    rcases Intern.internStringInt_cases h with ⟨rfl, -⟩ | ⟨-, h⟩
    · exact hwf
    · exact hwf.intern h
  | track ho | link ho => exact hwf.link ho rfl ⟨rfl, rfl, rfl⟩
  | script h => exact hwf.works h

theorem IsCallable.keeps (h : IsCallable vm v) (hkeeps : Keeps vm vm') : IsCallable vm' v := by
  obtain ⟨r, o, rfl, hr, htype⟩ := h
  obtain ⟨o', hr', htype'⟩ := hkeeps r o hr
  exact ⟨r, o', rfl, hr', htype' ▸ htype⟩

/-- A function that is called, or acquired, gets a closure. -/
theorem newClosure_spec (hwf : WellFormed vm) (function : Ref) (f : FunctionObj) :
    WellFormed (vm.newClosure sizeof function f).1 ∧ Keeps vm (vm.newClosure sizeof function f).1 ∧
      IsCallable (vm.newClosure sizeof function f).1 (.obj (vm.newClosure sizeof function f).2) := by
  refine ⟨hwf.link (o := .closure _) (by rintro ⟨⟩) rfl ⟨rfl, rfl, rfl⟩, .of_cons rfl rfl, ?_⟩
  exact ⟨_, _, rfl, by rw [VM.newClosure, VM.alloc, Heap.get?_cons, if_pos rfl], .inl rfl⟩

end Keeps

/-! ### A registry changes -/

theorem lookup_cons (p : ℕ × Callable) (blocks : List (ℕ × Callable)) (a : ℕ) :
    (p :: blocks).lookup a = if a = p.1 then some p.2 else blocks.lookup a := by
  rw [List.lookup_cons]
  by_cases ha : a = p.1
  · simp [ha]
  · rw [if_neg ha, beq_false_of_ne ha]

theorem mem_of_lookup {blocks : List (ℕ × Callable)} {a : ℕ} {c : Callable}
    (h : blocks.lookup a = some c) : a ∈ blocks.map Prod.fst := by
  induction blocks with
  | nil => cases h
  | cons p blocks ih =>
    rw [lookup_cons] at h
    rw [List.map_cons, List.mem_cons]
    split_ifs at h with ha
    · exact .inl ha
    · exact .inr (ih h)

namespace Registry

variable {sizeof : ObjType → ℕ} {E E' : Embedding} {handles : List (ℕ × Value)}

/-- Work on the machine leaves the handles alone. -/
theorem machine (h : Registry E handles) {machine : VM} (hwf : WellFormed machine)
    (hkeeps : Keeps E.machine machine) : Registry { E with machine } handles where
  wf := hwf
  nodup := h.nodup
  linked := h.linked
  block := h.block
  callable p hp := (h.callable p hp).keeps hkeeps

/-- A handle in front. -/
theorem link (h : Registry E handles) {a : ℕ} {v : Value} (ha : E.callable? a = none)
    (hv : IsCallable E.machine v) : Registry (E.link v (some a)).1 ((a, v) :: handles) := by
  have hne : ∀ p ∈ handles, p.1 ≠ a := by
    rintro p hp rfl
    obtain ⟨_, hblock⟩ := h.block p hp
    rw [ha] at hblock
    cases hblock
  have hcallable : ∀ b, (E.link v (some a)).1.callable? b =
      if b = a then some ⟨true, v, E.callables⟩ else E.callable? b := by
    intro b
    exact lookup_cons _ _ _
  refine ⟨h.wf, ?_, ?_, ?_, ?_⟩
  · rw [List.map_cons, List.nodup_cons]
    refine ⟨fun hmem => ?_, h.nodup⟩
    obtain ⟨p, hp, heq⟩ := List.mem_map.1 hmem
    exact hne p hp heq
  · refine h.linked.push (fun b hb => ?_) ?_
    · obtain ⟨p, hp, rfl⟩ := List.mem_map.1 hb
      rw [Embedding.next, hcallable, if_neg (hne p hp), Embedding.next]
    · rw [Embedding.next, hcallable, if_pos rfl]
      rfl
  · intro p hp
    rcases List.mem_cons.1 hp with rfl | hp
    · exact ⟨E.callables, by rw [hcallable, if_pos rfl]⟩
    · rw [hcallable, if_neg (hne p hp)]
      exact h.block p hp
  · intro p hp
    rcases List.mem_cons.1 hp with rfl | hp
    · exact hv
    · exact h.callable p hp

/-- The end of an acquisition. -/
theorem of_link (h : Registry E handles) {v : Value} {block handle : Option ℕ}
    (hblock : ∀ a ∈ block, E.callable? a = none) (hv : IsCallable E.machine v)
    (hlink : E.link v block = (E', handle)) :
    Registry E' ((handle.map fun a => (a, v)).toList ++ handles) := by
  cases block with
  | none =>
    cases hlink
    exact h
  | some a =>
    cases hlink
    exact h.link (hblock a rfl) hv

theorem acquire (h : Registry E handles) {value : Value} {closureFits : Bool}
    {block handle : Option ℕ} (hblock : ∀ a ∈ block, E.callable? a = none)
    (hacquire : E.acquire sizeof value closureFits block = some (E', handle)) :
    Registry E' ((handle.map fun a => (a, E.target value)).toList ++ handles) := by
  unfold Embedding.acquire at hacquire
  split at hacquire
  · rename_i r hvalue
    obtain ⟨o, hr, hacquire⟩ := Option.bind_eq_some_iff.1 hacquire
    rw [Embedding.target, hvalue]
    dsimp only
    rw [hr]
    split at hacquire
    · exact h.of_link hblock ⟨r, _, rfl, hr, .inl rfl⟩ (Option.some.inj hacquire)
    · exact h.of_link hblock ⟨r, _, rfl, hr, .inr rfl⟩ (Option.some.inj hacquire)
    · rename_i f
      split_ifs at hacquire with hfits
      · obtain ⟨hwf, hkeeps, hcallable⟩ := @newClosure_spec sizeof _ h.wf r f
        exact (h.machine hwf hkeeps).of_link hblock hcallable (Option.some.inj hacquire)
      · cases hacquire
        exact h
    · cases hacquire
      exact h
  · cases hacquire
    exact h

/-! ### A handle is released -/

theorem length_le (h : Registry E handles) : handles.length ≤ E.blocks.length := by
  have hsub : handles.map Prod.fst ⊆ E.blocks.map Prod.fst := by
    intro a ha
    obtain ⟨p, hp, rfl⟩ := List.mem_map.1 ha
    obtain ⟨_, hblock⟩ := h.block p hp
    exact mem_of_lookup hblock
  have hle := (List.subperm_of_subset h.nodup hsub).length_le
  rwa [List.length_map, List.length_map] at hle

end Registry

section Blocks

variable {E E' : Embedding} {a b : ℕ} {next : Option ℕ} {l l' : List ℕ}

theorem callable?_free (E : Embedding) (a b : ℕ) :
    (E.free a).callable? b = if b = a then none else E.callable? b := by
  unfold Embedding.callable? Embedding.free
  induction E.blocks with
  | nil => simp
  | cons p blocks ih =>
    by_cases hp : p.1 = a
    · rw [List.filter_cons_of_neg (by simp [hp]), ih, lookup_cons, hp]
      split_ifs <;> rfl
    · rw [List.filter_cons_of_pos (by simp [hp]), lookup_cons, lookup_cons, ih]
      by_cases hb : b = a
      · rw [if_pos hb, if_pos hb, if_neg fun heq : b = p.1 => hp (heq ▸ hb)]
      · rw [if_neg hb, if_neg hb]

theorem callable?_write (E : Embedding) (next : Option ℕ) (p b : ℕ) :
    (E.write next (some p)).callable? b =
      if b = p then (E.callable? p).map ({ · with next }) else E.callable? b := by
  unfold Embedding.callable? Embedding.write
  dsimp only
  induction E.blocks with
  | nil => simp
  | cons q blocks ih =>
    rw [List.map_cons, lookup_cons, ih, lookup_cons, lookup_cons]
    by_cases hq : q.1 = p
    · by_cases hb : b = p
      · simp [hq, hb]
      · simp [hq, hb]
    · rw [if_neg hq]
      by_cases hbp : b = p
      · subst hbp
        simp [Ne.symm hq]
      · simp [hbp]

/-- The loop finds the link to the block. -/
theorem seek_eq {fuel : ℕ} {link head : Option ℕ} (hread : E.read link = some head)
    (hsegment : Segment E.next head l (some a)) (hl : ∀ b ∈ l, (E.callable? b).isSome)
    (ha : a ∉ l) (hfuel : l.length < fuel) :
    E.seek a fuel link = some (l.foldl (fun _ b => some b) link) := by
  induction l generalizing fuel link head with
  | nil =>
    obtain ⟨fuel, rfl⟩ := Nat.exists_eq_succ_of_ne_zero (Nat.ne_of_gt hfuel)
    rw [show head = some a from hsegment] at hread
    simp [Embedding.seek, hread]
  | cons b l ih =>
    obtain ⟨fuel, rfl⟩ := Nat.exists_eq_succ_of_ne_zero (Nat.ne_zero_of_lt hfuel)
    obtain ⟨rfl, hsegment⟩ := hsegment
    have hba : b ≠ a := fun heq => ha (heq ▸ List.mem_cons_self)
    obtain ⟨c, hc⟩ := Option.isSome_iff_exists.1 (hl b List.mem_cons_self)
    have hnext : E.read (some b) = some (E.next b) := by
      rw [Embedding.read, Embedding.next, hc]
      rfl
    have hrest := ih hnext hsegment (fun d hd => hl d (.tail _ hd))
      (fun hmem => ha (.tail _ hmem)) (Nat.lt_of_succ_lt_succ hfuel)
    simp [Embedding.seek, hread, hba, hrest]

theorem next_eq {c : Callable} (hc : E.callable? a = some c) : E.next a = c.next := by
  rw [Embedding.next, hc]
  rfl

/-- The list is without the block, and the other blocks only differ in their links. -/
structure Takes (E E' : Embedding) (a : ℕ) (rest : List ℕ) : Prop where
  linked : Linked E'.next E'.callables rest
  others : ∀ b c, b ≠ a → E.callable? b = some c → ∃ next, E'.callable? b = some { c with next }

/-- The first block of the list. -/
theorem takes_first {c : Callable} (hc : E.callable? a = some c)
    (hlinked : Linked E.next E.callables (a :: l)) (hnodup : (a :: l).Nodup) :
    Takes E ((E.write c.next none).free a) a l := by
  have hcallable : ∀ b, ((E.write c.next none).free a).callable? b =
      if b = a then none else E.callable? b := callable?_free _ _
  obtain ⟨-, hl⟩ := hlinked
  rw [next_eq hc] at hl
  refine ⟨(linked_congr fun b hb => ?_).2 hl, fun b d hb hd => ?_⟩
  · have hb : b ≠ a := fun heq => (List.nodup_cons.1 hnodup).1 (heq ▸ hb)
    rw [Embedding.next, hcallable, if_neg hb, Embedding.next]
  · exact ⟨d.next, by rw [hcallable, if_neg hb, hd]⟩

/-- A block with another one before it. -/
theorem takes_behind {p : ℕ} {c d : Callable} (hc : E.callable? a = some c)
    (hd : E.callable? p = some d) (hlinked : Linked E.next E.callables (l ++ p :: a :: l'))
    (hnodup : (l ++ p :: a :: l').Nodup) :
    Takes E ((E.write c.next (some p)).free a) a (l ++ p :: l') := by
  have hcallable : ∀ b, b ≠ a → ((E.write c.next (some p)).free a).callable? b =
      if b = p then some { d with next := c.next } else E.callable? b := by
    intro b hb
    rw [callable?_free, if_neg hb, callable?_write, hd]
    rfl
  have hne : ∀ b ∈ l ++ p :: l', b ≠ a := by
    rintro b hb rfl
    rw [List.append_cons] at hnodup hb
    have hmem := List.nodup_middle.1 hnodup
    exact (List.nodup_cons.1 hmem).1 hb
  refine ⟨(linked_congr fun b hb => ?_).2 (hlinked.unlink hnodup), fun b e hb he => ?_⟩
  · rw [Embedding.next, hcallable b (hne b hb), next_eq hc]
    by_cases hbp : b = p
    · rw [if_pos hbp, hbp, Function.update_self]
      rfl
    · rw [if_neg hbp, Function.update_of_ne hbp, Embedding.next]
  · rw [hcallable b hb]
    by_cases hbp : b = p
    · subst hbp
      cases hd.symm.trans he
      exact ⟨c.next, if_pos rfl⟩
    · exact ⟨e.next, by rw [if_neg hbp, he]⟩

end Blocks

namespace Registry

variable {sizeof : ObjType → ℕ} {E E' : Embedding} {handles : List (ℕ × Value)}

/-- A link to the block of a handle makes it possible to take the block out. -/
theorem release_of_link {a : ℕ} {c : Callable} (hc : E.callable? a = some c) (hvm : c.vm = true)
    {link : Option ℕ} (hseek : E.seek a (E.blocks.length + 1) none = some link)
    (hread : E.read link = some (some a)) :
    E.release (some a) = some ((E.write c.next link).free a) := by
  simp [Embedding.release, hc, hvm, hseek, hread]

/-- The block of a handle is taken out of the list, and the others stay. -/
theorem exists_release (h : Registry E handles) {a : ℕ} (ha : a ∈ handles.map Prod.fst) :
    ∃ E', E.release (some a) = some E' ∧ E'.machine = E.machine ∧
      Takes E E' a ((handles.map Prod.fst).erase a) := by
  have hsome : ∀ b ∈ handles.map Prod.fst, ∃ c, E.callable? b = some c ∧ c.vm = true := by
    intro b hb
    obtain ⟨p, hp, rfl⟩ := List.mem_map.1 hb
    obtain ⟨_, hblock⟩ := h.block p hp
    exact ⟨_, hblock, rfl⟩
  have hlen : (handles.map Prod.fst).length ≤ E.blocks.length := by
    rw [List.length_map]
    exact h.length_le
  have hlinked := h.linked
  have hnodup := h.nodup
  generalize handles.map Prod.fst = keys at *
  obtain ⟨l, l', rfl⟩ := List.append_of_mem ha
  obtain ⟨c, hc, hvm⟩ := hsome a ha
  have hal : a ∉ l := fun hmem => (List.nodup_append.1 hnodup).2.2 a hmem a List.mem_cons_self rfl
  obtain ⟨_, hsegment, rfl, -⟩ := linked_append.1 hlinked
  have hseek : E.seek a (E.blocks.length + 1) none = some (l.foldl (fun _ b => some b) none) := by
    refine seek_eq rfl hsegment (fun b hb => ?_) hal ?_
    · obtain ⟨d, hd, -⟩ := hsome b (List.mem_append_left _ hb)
      exact Option.isSome_iff_exists.2 ⟨d, hd⟩
    · rw [List.length_append] at hlen
      omega
  rw [List.erase_append_right _ hal, List.erase_cons_head]
  rcases l.eq_nil_or_concat' with rfl | ⟨l, p, rfl⟩
  · -- the block is the first one
    exact ⟨_, release_of_link hc hvm hseek (congrArg some hsegment), rfl,
      takes_first hc hlinked hnodup⟩
  · -- the block before it is linked to the one behind it
    rw [List.foldl_append] at hseek
    rw [List.append_assoc, List.singleton_append] at hlinked hnodup ⊢
    obtain ⟨d, hd, -⟩ := hsome p (by simp)
    refine ⟨_, release_of_link hc hvm hseek ?_, rfl, takes_behind hc hd hlinked hnodup⟩
    rw [List.foldl_cons, List.foldl_nil, Embedding.read, hd, Option.map_some, ← next_eq hd,
      (segment_concat.1 hsegment).2]

/-- The handles but one. -/
theorem release (h : Registry E handles) {a : ℕ} (ha : a ∈ handles.map Prod.fst)
    (hrelease : E.release (some a) = some E') :
    Registry E' (handles.filter fun p => p.1 ≠ a) := by
  obtain ⟨_, hrelease', hmachine, htakes⟩ := h.exists_release ha
  cases hrelease'.symm.trans hrelease
  have hkeys : (handles.filter fun p => p.1 ≠ a).map Prod.fst = (handles.map Prod.fst).erase a := by
    rw [h.nodup.erase_eq_filter, List.filter_map]
    congr 1
    exact List.filter_congr fun p _ => by simp [bne, beq_eq_decide]
  refine ⟨hmachine ▸ h.wf, hkeys ▸ h.nodup.erase a, hkeys ▸ htakes.linked, ?_, ?_⟩
  · intro p hp
    obtain ⟨hp, hne⟩ := List.mem_filter.1 hp
    obtain ⟨_, hblock⟩ := h.block p hp
    obtain ⟨next, hnext⟩ := htakes.others p.1 _ (of_decide_eq_true hne) hblock
    exact ⟨next, hnext⟩
  · intro p hp
    rw [hmachine]
    exact h.callable p (List.mem_filter.1 hp).1

/-! ### All handles are released -/

theorem exists_releaseLoop {keys : List ℕ} {head : Option ℕ} {fuel : ℕ}
    (hlinked : Linked E.next head keys) (hnodup : keys.Nodup)
    (hsome : ∀ a ∈ keys, ∃ c, E.callable? a = some c) (hfuel : keys.length ≤ fuel) :
    ∃ E', E.releaseLoop fuel head = some E' ∧ E'.machine = E.machine ∧
      E'.callables = E.callables := by
  induction keys generalizing E head fuel with
  | nil =>
    rw [show head = none from hlinked]
    exact ⟨E, by rw [Embedding.releaseLoop.eq_def], rfl, rfl⟩
  | cons a keys ih =>
    obtain ⟨fuel, rfl⟩ := Nat.exists_eq_succ_of_ne_zero (Nat.ne_zero_of_lt hfuel)
    obtain ⟨rfl, hlinked⟩ := hlinked
    obtain ⟨hne, hnodup⟩ := List.nodup_cons.1 hnodup
    obtain ⟨c, hc⟩ := hsome a List.mem_cons_self
    have hcallable : ∀ b ∈ keys, (E.free a).callable? b = E.callable? b := fun b hb => by
      rw [callable?_free, if_neg fun heq : b = a => hne (heq ▸ hb)]
    have hrest : Linked (E.free a).next c.next keys := by
      rw [next_eq hc] at hlinked
      refine (linked_congr fun b hb => ?_).2 hlinked
      rw [Embedding.next, hcallable b hb, Embedding.next]
    obtain ⟨E', hE', hmachine, hcallables⟩ := ih hrest hnodup
      (fun b hb => hcallable b hb ▸ hsome b (.tail _ hb)) (Nat.le_of_succ_le_succ hfuel)
    exact ⟨E', by rw [Embedding.releaseLoop, hc]; exact hE', hmachine, hcallables⟩

theorem exists_releaseAll (h : Registry E handles) :
    ∃ E', E.releaseAll = some E' ∧ E'.machine = E.machine ∧ E'.callables = none := by
  refine exists_releaseLoop (E := { E with callables := none }) h.linked h.nodup (fun a ha => ?_) ?_
  · obtain ⟨p, hp, rfl⟩ := List.mem_map.1 ha
    obtain ⟨_, hblock⟩ := h.block p hp
    exact ⟨_, hblock⟩
  · rw [List.length_map]
    exact h.length_le

theorem releaseAll (h : Registry E handles) (hrelease : E.releaseAll = some E') :
    Registry E' [] := by
  obtain ⟨_, hrelease', hmachine, hcallables⟩ := h.exists_releaseAll
  cases hrelease'.symm.trans hrelease
  exact ⟨hmachine ▸ h.wf, .nil, hcallables, nofun, nofun⟩

/-! ### A collection -/

theorem markedValues_eq {fuel : ℕ} {head : Option ℕ}
    (hlinked : Linked E.next head (handles.map Prod.fst))
    (hblock : ∀ p ∈ handles, ∃ next, E.callable? p.1 = some ⟨true, p.2, next⟩)
    (hfuel : handles.length < fuel) :
    E.markedValues fuel head = some (handles.map Prod.snd) := by
  induction handles generalizing head fuel with
  | nil =>
    obtain ⟨fuel, rfl⟩ := Nat.exists_eq_succ_of_ne_zero (Nat.ne_of_gt hfuel)
    rw [show head = none from hlinked, Embedding.markedValues]
    rfl
  | cons p handles ih =>
    obtain ⟨fuel, rfl⟩ := Nat.exists_eq_succ_of_ne_zero (Nat.ne_zero_of_lt hfuel)
    obtain ⟨rfl, hlinked⟩ := hlinked
    obtain ⟨next, hc⟩ := hblock p List.mem_cons_self
    rw [next_eq hc] at hlinked
    have hrest := ih hlinked (fun q hq => hblock q (.tail _ hq)) (Nat.lt_of_succ_lt_succ hfuel)
    simp [Embedding.markedValues, hc, hrest]

/-- The collector sees the closures of the handles. -/
theorem marking_eq (h : Registry E handles) :
    E.marking = some { E.machine with callables := handles.map Prod.snd } := by
  rw [Embedding.marking, markedValues_eq h.linked h.block (Nat.lt_succ_of_le h.length_le)]
  rfl

theorem mem_roots (E : Embedding) {a : ℕ} {r : Ref} (hr : (a, .obj r) ∈ handles) :
    r ∈ { E.machine with callables := handles.map Prod.snd }.rootReferences := by
  refine List.mem_append_right _ (List.mem_flatMap.2 ⟨.obj r, ?_, List.mem_singleton_self r⟩)
  exact List.mem_map.2 ⟨_, hr, rfl⟩

theorem exists_collect (h : Registry E handles) (sizeof : ObjType → ℕ) :
    ∃ E', E.collect sizeof = some E' ∧ Registry E' handles ∧ ∀ a r, (a, .obj r) ∈ handles →
      ∀ x, Reach (edges E.machine.objects) {r} x →
        E'.machine.objects.get? x = E.machine.objects.get? x := by
  classical
  let vm : VM := { E.machine with callables := handles.map Prod.snd }
  have hwf : WellFormed vm :=
    ⟨⟨h.wf.interned.nodup, h.wf.interned.hash_eq, h.wf.interned.chars_inj, h.wf.interned.count_eq,
      h.wf.interned.table⟩, h.wf.unmarked, h.wf.gray⟩
  obtain ⟨vm', hcollect, hwf', hobj, -⟩ := Gc.exists_collect sizeof hwf
  have hstays : ∀ a r, (a, .obj r) ∈ handles → ∀ x, Reach (edges E.machine.objects) {r} x →
      vm'.objects.get? x = E.machine.objects.get? x := by
    rintro a r hr x ⟨_, rfl, hx⟩
    have hlive : Live vm x := ⟨_, mem_roots E hr, hx⟩
    rw [hobj]
    exact get?_filter fun c _ hc => by rw [hc]; exact decide_eq_true hlive
  refine ⟨{ E with machine := vm' }, ?_, ⟨hwf', h.nodup, h.linked, h.block, fun p hp => ?_⟩, hstays⟩
  · rw [Embedding.collect, h.marking_eq, Option.bind_eq_bind, Option.bind_some]
    exact Option.bind_eq_some_iff.2 ⟨vm', hcollect, rfl⟩
  · obtain ⟨r, o, hr, ho, htype⟩ := h.callable p hp
    refine ⟨r, o, hr, ?_, htype⟩
    rw [hstays p.1 r (hr ▸ hp) r (.root rfl)]
    exact ho

end Registry

/-! ### Every run -/

section Runs

variable {sizeof : ObjType → ℕ} {events : List Event} {E E' : Embedding} {e : Event}
  {handles : List (ℕ × Value)}

theorem IsCallable.cases {vm : VM} {r : Ref} (h : IsCallable vm (.obj r)) :
    (∃ c, vm.objects.get? r = some (.closure c)) ∨ ∃ n, vm.objects.get? r = some (.native n) := by
  obtain ⟨_, o, heq, hr, htype⟩ := h
  cases heq
  cases o
  case closure c => exact .inl ⟨c, hr⟩
  case native n => exact .inr ⟨n, hr⟩
  all_goals simp [Obj.type] at htype

theorem callTarget?_of_callable {vm : VM} {r : Ref} (h : IsCallable vm (.obj r)) :
    vm.callTarget? sizeof (.obj r) = some (vm, r) := by
  have htarget : ∀ o, vm.objects.get? r = some o → (∀ v, o ≠ .tainted v) →
      (∀ v w, o ≠ .scalarCell v w) →
      vm.objects.dereferenceValue (vm.objects.unwrapTaint (.obj r)) = .obj r := by
    intro o hr htaint hcell
    rw [Heap.unwrapTaint_of_not_tainted fun v hv => htaint v (Option.some.inj (hr.symm.trans hv))]
    refine Heap.dereferenceValue_of_not_cell ?_
    rw [Heap.isCell_obj, hr]
    split
    · next hv => exact absurd (Option.some.inj hv) (hcell _ _)
    · rfl
  rw [VM.callTarget?]
  rcases h.cases with ⟨c, hr⟩ | ⟨n, hr⟩
  · rw [htarget _ hr nofun nofun]
    simp only [hr]
  · rw [htarget _ hr nofun nofun]
    simp only [hr]

/-- The closure of a handle is put on the stack with the arguments. -/
theorem Registry.call_eq (h : Registry E handles) {p : ℕ × Value} (hp : p ∈ handles) {r : Ref}
    (hr : p.2 = .obj r) {arguments : List Value} (hcount : arguments.length ≤ 255)
    (hroom : arguments.length + 1 ≤ stackMax - E.machine.top) :
    E.call sizeof (some p.1) arguments = some (some { E with
      machine := { E.machine with stack := E.machine.stack ++ .obj r :: arguments } }) := by
  obtain ⟨next, hblock⟩ := h.block p hp
  have htarget : E.machine.callTarget? sizeof p.2 = some (E.machine, r) := by
    rw [hr]
    exact callTarget?_of_callable (hr ▸ h.callable p hp)
  have hvalue : Embedding.callValue sizeof E.machine p.2 arguments =
      some (Nested.pushCall E.machine r arguments) := by
    rw [Embedding.callValue, if_neg hcount.not_gt, htarget]
    exact if_neg hroom.not_gt
  rw [Nested.pushCall_eq hroom] at hvalue
  simp [Embedding.call, hblock, hvalue]

/-- Calling a handle makes a closure at most. -/
theorem callTarget?_keeps {vm vm' : VM} {v : Value} {callee : Ref} (hwf : WellFormed vm)
    (h : vm.callTarget? sizeof v = some (vm', callee)) : WellFormed vm' ∧ Keeps vm vm' := by
  unfold VM.callTarget? at h
  split at h
  · split at h
    · cases h
      obtain ⟨hwf', hkeeps, -⟩ := newClosure_spec hwf _ _
      exact ⟨hwf', hkeeps⟩
    · cases h
      exact ⟨hwf, .refl _⟩
    · cases h
      exact ⟨hwf, .refl _⟩
    · cases h
  · cases h

theorem callValue_keeps {vm vm' : VM} {v : Value} {arguments : List Value} (hwf : WellFormed vm)
    (h : Embedding.callValue sizeof vm v arguments = some vm') : WellFormed vm' ∧ Keeps vm vm' := by
  unfold Embedding.callValue at h
  split_ifs at h with hcount
  obtain ⟨⟨vm₁, callee⟩, htarget, h⟩ := Option.bind_eq_some_iff.1 h
  obtain ⟨hwf', hkeeps⟩ := callTarget?_keeps hwf htarget
  dsimp only at h
  split_ifs at h with hroom
  cases h
  rw [Nested.pushCall_eq (not_lt.1 hroom)]
  exact ⟨⟨⟨hwf'.interned.nodup, hwf'.interned.hash_eq, hwf'.interned.chars_inj,
    hwf'.interned.count_eq, hwf'.interned.table⟩, hwf'.unmarked, hwf'.gray⟩, hkeeps⟩

theorem Registry.call (h : Registry E handles) {a : ℕ} {arguments : List Value}
    (hcall : E.call sizeof (some a) arguments = some (some E')) : Registry E' handles := by
  obtain ⟨c, -, hcall⟩ := Option.bind_eq_some_iff.1 hcall
  split_ifs at hcall with hvm
  · obtain ⟨machine, hvalue, rfl⟩ := Option.map_eq_some_iff.1 (Option.some.inj hcall)
    obtain ⟨hwf, hkeeps⟩ := callValue_keeps h.wf hvalue
    exact h.machine hwf hkeeps
  · cases hcall

/-- A registry is a law. -/
theorem Registry.handleLaw (h : Registry E handles) (sizeof : ObjType → ℕ) :
    HandleLaw sizeof E handles where
  listed := ⟨h.linked, h.nodup⟩
  roots := ⟨_, h.marking_eq, fun _ _ => Registry.mem_roots E⟩
  collects := by
    obtain ⟨E', hcollect, -, hstays⟩ := h.exists_collect sizeof
    exact ⟨E', hcollect, hstays⟩
  usable p hp := ⟨h.callable p hp, fun _ hr _ hcount hroom => h.call_eq hp hr hcount hroom⟩
  releases p hp := by
    obtain ⟨E', hrelease, -, htakes⟩ := h.exists_release (List.mem_map_of_mem hp)
    exact ⟨E', hrelease, htakes.linked⟩
  releasesAll := by
    obtain ⟨E', hrelease, -, hcallables⟩ := h.exists_releaseAll
    exact ⟨E', hrelease, hcallables⟩

/-- An event keeps the list of the machine that of the handles held. -/
theorem Step.registry (hstep : Step sizeof events E e E') (h : Registry E (held events)) :
    Registry E' (held (e :: events)) := by
  cases hstep with
  | acquire hblock hacquire =>
    rename_i value closureFits block handle
    cases handle <;> exact h.acquire hblock hacquire
  | release hheld hrelease =>
    rename_i handle
    cases handle with
    | none =>
      cases hrelease
      exact h
    | some a => exact h.release (hheld a rfl) hrelease
  | call hcall => exact h.call hcall
  | work hactivity => exact h.machine (hactivity.wellFormed h.wf) hactivity.keeps
  | collect hcollect =>
    obtain ⟨_, hcollect', hregistry, -⟩ := h.exists_collect sizeof
    cases hcollect'.symm.trans hcollect
    exact hregistry
  | releaseAll hrelease => exact h.releaseAll hrelease

theorem Run.registry (hrun : Run sizeof events E) : Registry E (held events) := by
  induction hrun with
  | start => exact ⟨vmNew_wellFormed, .nil, rfl, nofun, nofun⟩
  | step _ hstep ih => exact hstep.registry ih

/-- **In every state of a run the list of the machine consists of the handles that are held, and they
are what the host relies on.** -/
theorem run_handleLaw (hrun : Run sizeof events E) : HandleLaw sizeof E (held events) :=
  hrun.registry.handleLaw sizeof

end Runs

/-! ### Three handles of one function -/

/-- A machine with a native function. -/
def nativeMachine : VM := (vmNew.alloc (fun _ => 16) (.native { fn := "puts" })).1

/-- The machine with handles of the function. -/
def nativeHandles (blocks : List (ℕ × Option ℕ)) (callables : Option ℕ) : Embedding :=
  ⟨nativeMachine, blocks.map fun p => (p.1, ⟨true, .obj 2, p.2⟩), callables⟩

/-- Three handles are acquired, and the one in the middle is released. -/
def sharedEvents : List Event :=
  [.release (some 9), .acquire (some (7, .obj 2)), .acquire (some (9, .obj 2)),
    .acquire (some (8, .obj 2)), .work]

theorem acquire_nativeHandles {events : List Event} {blocks : List (ℕ × Option ℕ)}
    {callables : Option ℕ} {a : ℕ} (ha : (nativeHandles blocks callables).callable? a = none) :
    Step (fun _ => 16) events (nativeHandles blocks callables) (.acquire (some (a, .obj 2)))
      (nativeHandles ((a, callables) :: blocks) (some a)) :=
  @Step.acquire _ _ _ (.obj 2) true (some a) _ (some a) (by rintro b ⟨⟩; exact ha) rfl

theorem run_shared : Run (fun _ => 16) sharedEvents (nativeHandles [(7, some 8), (8, none)] (some 7)) := by
  have hwork : Run (fun _ => 16) [.work] (nativeHandles [] none) :=
    .step .start (.work (.track nofun))
  refine .step (.step (.step (.step hwork (acquire_nativeHandles rfl)) (acquire_nativeHandles rfl))
    (acquire_nativeHandles rfl)) (.release (by decide) (by decide))

/-- The first handle and the last one are left. -/
theorem run_handleLaw_shared :
    held sharedEvents = [(7, .obj 2), (8, .obj 2)] ∧
      HandleLaw (fun _ => 16) (nativeHandles [(7, some 8), (8, none)] (some 7)) (held sharedEvents) :=
  ⟨by decide, run_handleLaw run_shared⟩

end Embed

end Slp
