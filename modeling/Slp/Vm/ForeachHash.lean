import Slp.Vm.Foreach

/-!
# Foreach loops over a hash that is not touched

The loop goes through the ordinals of the table and skips those whose entry holds null.  When the
table ends with such entries the skipping stops at the last of them instead of the end, and the
loop makes one round for it.  `visitsVisible_iff` : the loop makes a round for each visible entry,
in order, and no other, exactly if the last entry of the table is visible or the table is empty.
-/

namespace Slp

namespace HashObj

section

variable {fmt : Printf} {h h' : Heap} {t : HashObj}

/-- The entries of a table by ordinal. -/
def inOrder (fmt : Printf) (h : Heap) (t : HashObj) : List HashEntry :=
  (ordered fmt h t).map fun p => t.entries.getD p {}

/-- The order depends on the heap through the texts of the keys only. -/
theorem orderedIndex_congr
    (htexts : ∀ e ∈ t.liveEntries, keyRepr fmt h' e.key = keyRepr fmt h e.key) (i : ℤ) :
    orderedIndex fmt h' t i = orderedIndex fmt h t i := by
  have hlive : ∀ p < t.entries.length, (t.entries.getD p {}).key ≠ .null →
      t.entries.getD p {} ∈ t.liveEntries := by
    intro p hp hkey
    rw [getD_of_getElem? (List.getElem?_eq_getElem hp)] at hkey ⊢
    exact Table.mem_live.2 ⟨p, List.getElem?_eq_getElem hp, HashEntry.mark_eq_live.2 hkey⟩
  have hhash : ∀ p < t.entries.length, (t.entries.getD p {}).key ≠ .null →
      hashValue fmt h' (t.entries.getD p {}).key = hashValue fmt h (t.entries.getD p {}).key := by
    intro p hp hkey
    unfold hashValue
    rw [htexts _ (hlive p hp hkey)]
  have hprec : ∀ p < t.entries.length, (t.entries.getD p {}).key ≠ .null →
      ∀ q < t.entries.length, (t.entries.getD q {}).key ≠ .null →
        entryPrecedes fmt h' t p q = entryPrecedes fmt h t p q := by
    intro p hp hkey q hq hkey'
    rw [entryPrecedes, entryPrecedes, hhash p hp hkey, hhash q hq hkey']
  have hrank : ∀ p < t.entries.length, (t.entries.getD p {}).key ≠ .null →
      rank fmt h' t p = rank fmt h t p := by
    intro p hp hkey
    refine List.countP_congr fun q hq => ?_
    by_cases hkey' : (t.entries.getD q {}).key = .null
    · simp only [hkey', decide_true, Bool.true_or, Bool.not_true, Bool.false_and]
    · rw [hprec q (List.mem_range.1 hq) hkey' p hp hkey]
  rw [orderedIndex, orderedIndex]
  split
  · rfl
  · refine List.find?_congr fun p hp => ?_
    by_cases hkey : (t.entries.getD p {}).key = .null
    · simp only [hkey, decide_true, Bool.not_true, Bool.false_and]
    · rw [hrank p (List.mem_range.1 hp) hkey]

theorem ordered_congr
    (htexts : ∀ e ∈ t.liveEntries, keyRepr fmt h' e.key = keyRepr fmt h e.key) :
    ordered fmt h' t = ordered fmt h t := by
  rw [ordered, ordered]
  exact List.filterMap_congr fun i _ => orderedIndex_congr htexts i

theorem visibleCount_eq (hperm : (ordered fmt h t).Perm (slots t)) :
    t.visibleCount = ((inOrder fmt h t).filter fun e => e.value ≠ .null).length := by
  have hentries : (inOrder fmt h t).Perm t.liveEntries := by
    rw [← map_slots]
    exact hperm.map _
  rw [visibleCount, ← List.countP_eq_length_filter, hentries.countP_eq, liveEntries, Table.live,
    List.countP_filter]
  refine List.countP_congr fun e _ => ?_
  simp [HashEntry.mark_eq_live, and_comm]

/-! ### Skipping -/

section Skip

variable {o o₁ z w : List ℕ} {p : ℕ}

/-- One round of the skipping. -/
theorem skipNull_step {n : ℕ} (hlt : n < t.count) (hp : orderedIndex fmt h t n = some p)
    (slot : Option ℕ) :
    skipNull fmt h t (t.count - n) n slot =
      if (t.entries.getD p {}).value = .null then
        skipNull fmt h t (t.count - (n + 1)) (n + 1 : ℕ) (some p)
      else ((n : ℤ), some p) := by
  have hfuel : t.count - n = t.count - (n + 1) + 1 := by omega
  rw [hfuel, skipNull, if_pos (by omega), hp]
  rfl

theorem orderedIndex_middle (hindex : ∀ i < t.count, orderedIndex fmt h t i = o[i]?)
    (hlen : o.length = t.count) (ho : o = o₁ ++ p :: w) :
    o₁.length < t.count ∧ orderedIndex fmt h t o₁.length = some p := by
  have hlt : o₁.length < t.count := by
    rw [← hlen, ho]
    simp
  refine ⟨hlt, ?_⟩
  rw [hindex _ hlt, ho]
  simp

/-- The skipping stops at the first slot that holds something. -/
theorem skipNull_some (hindex : ∀ i < t.count, orderedIndex fmt h t i = o[i]?)
    (hlen : o.length = t.count) (ho : o = o₁ ++ z ++ p :: w)
    (hz : ∀ q ∈ z, (t.entries.getD q {}).value = .null)
    (hp : (t.entries.getD p {}).value ≠ .null) (slot : Option ℕ) :
    skipNull fmt h t (t.count - o₁.length) o₁.length slot =
      (((o₁.length + z.length : ℕ) : ℤ), some p) := by
  induction z generalizing o₁ slot with
  | nil =>
    obtain ⟨hlt, hget⟩ := orderedIndex_middle hindex hlen (by simpa using ho)
    rw [skipNull_step hlt hget, if_neg hp]
    rfl
  | cons q z ih =>
    obtain ⟨hlt, hget⟩ := orderedIndex_middle (w := z ++ p :: w) hindex hlen (by simpa using ho)
    have hrest := ih (show o = (o₁ ++ [q]) ++ z ++ p :: w by simpa using ho)
      (fun x hx => hz x (List.mem_cons_of_mem q hx)) (some q)
    rw [List.length_append, List.length_singleton] at hrest
    rw [skipNull_step hlt hget, if_pos (hz q List.mem_cons_self), hrest, List.length_cons,
      Nat.add_assoc, Nat.add_comm 1]

/-- When there is none the skipping stops at the end, with the slot it looked at last. -/
theorem skipNull_none (hindex : ∀ i < t.count, orderedIndex fmt h t i = o[i]?)
    (hlen : o.length = t.count) (ho : o = o₁ ++ z)
    (hz : ∀ q ∈ z, (t.entries.getD q {}).value = .null) (slot : Option ℕ) :
    skipNull fmt h t (t.count - o₁.length) o₁.length slot = ((t.count : ℤ), z.getLast?.or slot) := by
  induction z generalizing o₁ slot with
  | nil =>
    have hlen' : o₁.length = t.count := by rw [← hlen, ho, List.append_nil]
    rw [hlen', Nat.sub_self, skipNull]
    rfl
  | cons q z ih =>
    obtain ⟨hlt, hget⟩ := orderedIndex_middle hindex hlen ho
    have hrest := ih (show o = (o₁ ++ [q]) ++ z by simpa using ho)
      (fun x hx => hz x (List.mem_cons_of_mem q hx)) (some q)
    rw [List.length_append, List.length_singleton] at hrest
    rw [skipNull_step hlt hget, if_pos (hz q List.mem_cons_self), hrest]
    cases z <;> simp [List.getLast?_cons]

end Skip

end

end HashObj

namespace VM

/-- The machine is about to make a step of a loop over the object at `r`, with this iterator. -/
structure AtHead (vm : VM) (r : Ref) (n : ℤ) : Prop where
  stack : ∃ s, vm.stack = s ++ [.obj r, .num n]
  idle : ∃ f, vm.currentFrame? = some f ∧ f.foreachPending = false

/-- What the body of a loop may do that does not touch the hash at `r`. -/
structure Untouched (fmt : Printf) (r : Ref) (t : HashObj) (vm vm' : VM) : Prop where
  stack : vm'.stack = vm.stack
  idle : ∃ f, vm'.currentFrame? = some f ∧ f.foreachPending = false
  hash : vm'.objects.get? r = vm.objects.get? r
  texts : ∀ e ∈ t.liveEntries,
    HashObj.keyRepr fmt vm'.objects e.key = HashObj.keyRepr fmt vm.objects e.key

section

variable (sizeof : ObjType → ℕ) (fmt : Printf) (valueOnly : Bool) (offset : ℕ)

/-- The rounds of a loop over the hash `t` at `r` so far, with what they bound. -/
inductive HashRun (r : Ref) (t : HashObj) (vm₀ : VM) : List (Value × Value) → VM → Prop where
  | start : HashRun r t vm₀ [] vm₀
  | round {bs : List (Value × Value)} {vm vm₁ vm₂ : VM} {warned : Bool} {key value : Value}
      (hrun : HashRun r t vm₀ bs vm)
      (hnext : foreachNext sizeof fmt valueOnly offset vm = .enter warned key value vm₁)
      (hbody : Untouched fmt r t vm₁ vm₂) : HashRun r t vm₀ (bs ++ [(key, value)]) vm₂

/-- What a round for an entry binds: its key and its value, or its key alone. -/
def binding (e : HashEntry) : Value × Value := (e.key, if valueOnly then e.key else e.value)

/-- The loop has a round for each visible entry, in order, and then ends. -/
def VisitsVisible (r : Ref) (t : HashObj) (vm₀ : VM) : Prop :=
  let visible := ((t.inOrder fmt vm₀.objects).filter fun e => e.value ≠ .null).map
    (binding valueOnly)
  visible.length = t.visibleCount ∧
    ∀ bs vm, HashRun sizeof fmt valueOnly offset r t vm₀ bs vm → bs <+: visible ∧
      ((foreachNext sizeof fmt valueOnly offset vm).exits ↔ bs = visible)

end

/-! ### One step -/

section Step

variable (sizeof : ObjType → ℕ) (fmt : Printf) (valueOnly : Bool) (offset : ℕ) {vm : VM} {r : Ref}
  {n ordinal : ℤ} {t : HashObj} {p : ℕ}

@[simp] theorem modifyFrame_stack (vm : VM) (g : CallFrame → CallFrame) :
    (vm.modifyFrame g).stack = vm.stack := rfl

@[simp] theorem modifyFrame_objects (vm : VM) (g : CallFrame → CallFrame) :
    (vm.modifyFrame g).objects = vm.objects := rfl

@[simp] theorem currentFrame?_modifyFrame (vm : VM) (g : CallFrame → CallFrame) :
    (vm.modifyFrame g).currentFrame? = vm.currentFrame?.map g := by
  simp [currentFrame?, modifyFrame, List.getLast?_eq_getElem?]

theorem peek_zero {s : List Value} {a b : Value} (h : vm.stack = s ++ [a, b]) :
    vm.peek 0 = b := by
  simp [peek, h]

theorem peek_one {s : List Value} {a b : Value} (h : vm.stack = s ++ [a, b]) :
    vm.peek 1 = a := by
  simp [peek, h]

/-- The iterator is the topmost slot. -/
theorem setSlot_top {s : List Value} {a b : Value} (h : vm.stack = s ++ [a, b]) (v : Value) :
    (vm.setSlot (vm.top - 1) v).stack = s ++ [a, v] := by
  have htop : (vm.top - 1).toNat = s.length + 1 := by
    simp only [top, h, List.length_append, List.length_cons, List.length_nil]
    omega
  rw [setSlot, htop, h, List.set_append_right _ _ (Nat.le_succ _)]
  simp

theorem AtHead.collectionStep (hh : AtHead vm r n) :
    ∃ f, vm.currentFrame? = some f ∧ f.foreachPending = false ∧
      foreachNext sizeof fmt valueOnly offset vm =
        (vm.modifyFrame fun _ => foreachReset f).collectionStep sizeof fmt valueOnly offset false
          (foreachReset f) := by
  obtain ⟨f, hf, hpending⟩ := hh.idle
  refine ⟨f, hf, hpending, ?_⟩
  have hreset : (foreachReset f).foreachPending = false := hpending
  simp [foreachNext, hf, hreset]

theorem foreachNext_hash (hh : AtHead vm r n) (ht : vm.objects.get? r = some (.hash t)) :
    ∃ f, vm.currentFrame? = some f ∧ f.foreachPending = false ∧
      foreachNext sizeof fmt valueOnly offset vm =
        (vm.modifyFrame fun _ => foreachReset f).hashStep fmt valueOnly offset r t n := by
  obtain ⟨f, hf, hpending, heq⟩ := hh.collectionStep sizeof fmt valueOnly offset
  obtain ⟨s, hs⟩ := hh.stack
  refine ⟨f, hf, hpending, ?_⟩
  have hs' : (vm.modifyFrame fun _ => foreachReset f).stack = s ++ [.obj r, .num n] := hs
  rw [heq, VM.collectionStep, peek_zero hs', peek_one hs']
  dsimp only
  rw [modifyFrame_objects, ht]
  rfl

/-- A step that stops at a slot makes a round for its entry. -/
theorem hashNext_enter (hh : AtHead vm r n) (ht : vm.objects.get? r = some (.hash t))
    (hskip : t.skipNull fmt vm.objects (t.count - n).toNat n none = (ordinal, some p)) :
    ∃ vm₁, foreachNext sizeof fmt valueOnly offset vm =
        .enter false (t.entries.getD p {}).key (binding valueOnly (t.entries.getD p {})).2 vm₁ ∧
      AtHead vm₁ r (ordinal + 1) ∧ vm₁.objects = vm.objects := by
  obtain ⟨f, hf, hpending, heq⟩ := foreachNext_hash sizeof fmt valueOnly offset hh ht
  obtain ⟨s, hs⟩ := hh.stack
  rw [hashStep, modifyFrame_objects, hskip] at heq
  refine ⟨_, heq, ⟨⟨s, setSlot_top (by exact hs) _⟩, ?_⟩, rfl⟩
  refine ⟨recordEntry r (vm.top - 1) (t.entries.getD p {}).key (foreachReset f), ?_, hpending⟩
  change ((vm.modifyFrame _).modifyFrame _).currentFrame? = _
  simp [hf, top]

/-- A step that finds no slot leaves the loop. -/
theorem hashNext_exit (hh : AtHead vm r n) (ht : vm.objects.get? r = some (.hash t))
    (hskip : t.skipNull fmt vm.objects (t.count - n).toNat n none = (ordinal, none)) :
    (foreachNext sizeof fmt valueOnly offset vm).exits = true := by
  obtain ⟨f, -, -, heq⟩ := foreachNext_hash sizeof fmt valueOnly offset hh ht
  rw [heq, hashStep, modifyFrame_objects, hskip]
  rfl

end Step

/-! ### All steps -/

section Loop

variable {sizeof : ObjType → ℕ} {fmt : Printf} {valueOnly : Bool} {offset : ℕ} {vm₀ vm : VM}
  {r : Ref} {t : HashObj} {o₁ o₂ z w : List ℕ} {p : ℕ} {bs : List (Value × Value)}

/-- What the rounds for some slots bind. -/
def roundsOf (valueOnly : Bool) (t : HashObj) (ps : List ℕ) : List (Value × Value) :=
  ((ps.map fun p => t.entries.getD p {}).filter fun e => e.value ≠ .null).map (binding valueOnly)

theorem roundsOf_append (ps qs : List ℕ) :
    roundsOf valueOnly t (ps ++ qs) = roundsOf valueOnly t ps ++ roundsOf valueOnly t qs := by
  simp [roundsOf]

theorem roundsOf_null (hz : ∀ q ∈ z, (t.entries.getD q {}).value = .null) :
    roundsOf valueOnly t z = [] := by
  rw [roundsOf, List.map_eq_nil_iff, List.filter_eq_nil_iff]
  intro e he
  obtain ⟨q, hq, rfl⟩ := List.mem_map.1 he
  simp only [hz q hq, ne_eq, not_true_eq_false, decide_false, Bool.false_eq_true, not_false_eq_true]

theorem roundsOf_singleton (hp : (t.entries.getD p {}).value ≠ .null) :
    roundsOf valueOnly t [p] = [binding valueOnly (t.entries.getD p {})] := by
  rw [roundsOf, List.map_singleton, List.filter_singleton, decide_eq_true hp]
  rfl

/-- A list of slots has a first one that holds something, or none. -/
theorem null_or_split (t : HashObj) (o : List ℕ) :
    (∀ q ∈ o, (t.entries.getD q {}).value = .null) ∨
      ∃ z p w, o = z ++ p :: w ∧ (∀ q ∈ z, (t.entries.getD q {}).value = .null) ∧
        (t.entries.getD p {}).value ≠ .null := by
  cases hfind : o.find? fun q => (t.entries.getD q {}).value ≠ .null with
  | none =>
    refine .inl fun q hq => ?_
    simpa using List.find?_eq_none.1 hfind q hq
  | some p =>
    obtain ⟨hp, z, w, rfl, hz⟩ := List.find?_eq_some_iff_append.1 hfind
    exact .inr ⟨z, p, w, rfl, fun q hq => by simpa using hz q hq, by simpa using hp⟩

/-- The loop over `t` at `r` is about to look at the slots `o₂`, after `o₁`. -/
structure Between (fmt : Printf) (r : Ref) (t : HashObj) (vm₀ vm : VM) (o₁ o₂ : List ℕ) : Prop where
  order : HashObj.ordered fmt vm₀.objects t = o₁ ++ o₂
  head : AtHead vm r o₁.length
  hash : vm.objects.get? r = some (.hash t)
  texts : ∀ e ∈ t.liveEntries,
    HashObj.keyRepr fmt vm.objects e.key = HashObj.keyRepr fmt vm₀.objects e.key

namespace Between

theorem skip (hb : Between fmt r t vm₀ vm o₁ o₂)
    (hindex : ∀ i < t.count, t.orderedIndex fmt vm₀.objects i =
      (HashObj.ordered fmt vm₀.objects t)[i]?) :
    ∀ i < t.count, t.orderedIndex fmt vm.objects i = (HashObj.ordered fmt vm₀.objects t)[i]? := by
  intro i hi
  rw [HashObj.orderedIndex_congr hb.texts, hindex i hi]

/-- After the body the loop goes on behind the slot of the round. -/
theorem body {vm₁ vm₂ : VM} (hb : Between fmt r t vm₀ vm o₁ (o₂ ++ w))
    (hhead : AtHead vm₁ r (o₁.length + o₂.length : ℕ)) (hobjects : vm₁.objects = vm.objects)
    (hbody : Untouched fmt r t vm₁ vm₂) : Between fmt r t vm₀ vm₂ (o₁ ++ o₂) w where
  order := by rw [hb.order, List.append_assoc]
  head := by
    obtain ⟨s, hs⟩ := hhead.stack
    exact ⟨⟨s, by rw [hbody.stack, hs, List.length_append]⟩, hbody.idle⟩
  hash := by rw [hbody.hash, hobjects, hb.hash]
  texts e he := by rw [hbody.texts e he, hobjects, hb.texts e he]

end Between

section

variable (sizeof valueOnly offset)

/-- The step over some entries of null to one that holds something. -/
theorem next_of_split (hb : Between fmt r t vm₀ vm o₁ (z ++ p :: w))
    (hindex : ∀ i < t.count, t.orderedIndex fmt vm₀.objects i =
      (HashObj.ordered fmt vm₀.objects t)[i]?)
    (hlen : (HashObj.ordered fmt vm₀.objects t).length = t.count)
    (hz : ∀ q ∈ z, (t.entries.getD q {}).value = .null)
    (hp : (t.entries.getD p {}).value ≠ .null) :
    ∃ vm₁, foreachNext sizeof fmt valueOnly offset vm =
        .enter false (t.entries.getD p {}).key (binding valueOnly (t.entries.getD p {})).2 vm₁ ∧
      AtHead vm₁ r (o₁.length + (z ++ [p]).length : ℕ) ∧ vm₁.objects = vm.objects := by
  have hskip := HashObj.skipNull_some (hb.skip hindex) hlen (by rw [hb.order, List.append_assoc])
    hz hp none
  obtain ⟨vm₁, hnext, hhead, hobjects⟩ := hashNext_enter sizeof fmt valueOnly
    offset hb.head hb.hash (by simpa using hskip)
  refine ⟨vm₁, hnext, ?_, hobjects⟩
  simpa [add_assoc] using hhead

/-- The step at the end leaves the loop. -/
theorem exits_of_nil (hb : Between fmt r t vm₀ vm o₁ [])
    (hindex : ∀ i < t.count, t.orderedIndex fmt vm₀.objects i =
      (HashObj.ordered fmt vm₀.objects t)[i]?)
    (hlen : (HashObj.ordered fmt vm₀.objects t).length = t.count) :
    (foreachNext sizeof fmt valueOnly offset vm).exits = true := by
  have hskip := HashObj.skipNull_none (hb.skip hindex) hlen hb.order
    (fun q hq => absurd hq List.not_mem_nil) none
  exact hashNext_exit sizeof fmt valueOnly offset hb.head hb.hash (by simpa using hskip)

/-- The step over entries of null to the end makes a round for the last of them. -/
theorem not_exits_of_null (hb : Between fmt r t vm₀ vm o₁ o₂) (hne : o₂ ≠ [])
    (hindex : ∀ i < t.count, t.orderedIndex fmt vm₀.objects i =
      (HashObj.ordered fmt vm₀.objects t)[i]?)
    (hlen : (HashObj.ordered fmt vm₀.objects t).length = t.count)
    (hnull : ∀ q ∈ o₂, (t.entries.getD q {}).value = .null) :
    (foreachNext sizeof fmt valueOnly offset vm).exits = false := by
  have hskip := HashObj.skipNull_none (hb.skip hindex) hlen hb.order hnull none
  rw [List.getLast?_eq_some_getLast hne, Option.some_or] at hskip
  obtain ⟨vm₁, hnext, -⟩ := hashNext_enter sizeof fmt valueOnly offset hb.head hb.hash
    (by simpa using hskip)
  rw [hnext]
  rfl

end

variable {es : List HashEntry} {n : ℤ}

theorem untouched_refl (hh : AtHead vm r n) : Untouched fmt r t vm vm :=
  ⟨rfl, hh.idle, rfl, fun _ _ => rfl⟩

/-- While the table does not end with null, the rounds are those of the visible entries. -/
theorem HashRun.between (hrun : HashRun sizeof fmt valueOnly offset r t vm₀ bs vm)
    (hstart : Between fmt r t vm₀ vm₀ [] (HashObj.ordered fmt vm₀.objects t))
    (hindex : ∀ i < t.count, t.orderedIndex fmt vm₀.objects i =
      (HashObj.ordered fmt vm₀.objects t)[i]?)
    (hlen : (HashObj.ordered fmt vm₀.objects t).length = t.count)
    (hlast : ∀ p, (HashObj.ordered fmt vm₀.objects t).getLast? = some p →
      (t.entries.getD p {}).value ≠ .null) :
    ∃ o₁ o₂, Between fmt r t vm₀ vm o₁ o₂ ∧ bs = roundsOf valueOnly t o₁ := by
  induction hrun with
  | start => exact ⟨[], _, hstart, rfl⟩
  | @round bs vm vm₁ vm₂ warned key value _ hnext hbody ih =>
    obtain ⟨o₁, o₂, hb, rfl⟩ := ih
    rcases null_or_split t o₂ with hnull | ⟨z, p, w, rfl, hz, hp⟩
    · -- then there is nothing left, and the step would have left the loop
      rcases List.eq_nil_or_concat' o₂ with rfl | ⟨l, q, rfl⟩
      · have hexit := exits_of_nil sizeof valueOnly offset hb hindex hlen
        rw [hnext] at hexit
        cases hexit
      · refine absurd (hnull q (by simp)) (hlast q ?_)
        rw [hb.order, ← List.append_assoc, List.getLast?_concat]
    · obtain ⟨vm', hnext', hhead, hobjects⟩ := next_of_split sizeof valueOnly offset hb
        hindex hlen hz hp
      rw [hnext] at hnext'
      cases hnext'
      rw [show z ++ p :: w = (z ++ [p]) ++ w by simp] at hb
      refine ⟨o₁ ++ (z ++ [p]), w, hb.body hhead hobjects hbody, ?_⟩
      rw [roundsOf_append, roundsOf_append, roundsOf_null hz, List.nil_append,
        roundsOf_singleton hp]
      rfl

/-- A body that does nothing gets the loop behind all visible entries. -/
theorem exists_hashRun (hrun : HashRun sizeof fmt valueOnly offset r t vm₀ bs vm)
    (hb : Between fmt r t vm₀ vm o₁ o₂) (hne : o₂ ≠ [])
    (hbs : bs = roundsOf valueOnly t o₁)
    (hindex : ∀ i < t.count, t.orderedIndex fmt vm₀.objects i =
      (HashObj.ordered fmt vm₀.objects t)[i]?)
    (hlen : (HashObj.ordered fmt vm₀.objects t).length = t.count)
    (hlast : ∃ p, (HashObj.ordered fmt vm₀.objects t).getLast? = some p ∧
      (t.entries.getD p {}).value = .null) :
    ∃ vm' o₁ o₂, HashRun sizeof fmt valueOnly offset r t vm₀
        (roundsOf valueOnly t (HashObj.ordered fmt vm₀.objects t)) vm' ∧
      Between fmt r t vm₀ vm' o₁ o₂ ∧ o₂ ≠ [] ∧
      ∀ q ∈ o₂, (t.entries.getD q {}).value = .null := by
  induction hn : o₂.length using Nat.strongRecOn generalizing bs vm o₁ o₂ with
  | _ n ih =>
    rcases null_or_split t o₂ with hnull | ⟨z, p, w, rfl, hz, hp⟩
    · refine ⟨vm, o₁, o₂, ?_, hb, hne, hnull⟩
      rwa [hb.order, roundsOf_append, roundsOf_null hnull, List.append_nil, ← hbs]
    · obtain ⟨vm₁, hnext, hhead, hobjects⟩ := next_of_split sizeof valueOnly offset hb
        hindex hlen hz hp
      have hbody : Untouched fmt r t vm₁ vm₁ := untouched_refl hhead
      rw [show z ++ p :: w = (z ++ [p]) ++ w by simp] at hb
      -- the last entry holds null, so it is not the one of this round
      have hw : w ≠ [] := by
        rintro rfl
        obtain ⟨q, hq, hnull⟩ := hlast
        rw [hb.order, List.append_nil, ← List.append_assoc, List.getLast?_concat] at hq
        exact hp (Option.some.inj hq ▸ hnull)
      refine ih w.length (by rw [← hn]; simp; omega) (hrun.round hnext hbody)
        (hb.body hhead hobjects hbody) hw ?_ rfl
      rw [roundsOf_append, roundsOf_append, roundsOf_null hz, List.nil_append,
        roundsOf_singleton hp, hbs]
      rfl

/-- A loop over a hash that its body does not touch makes a round for each visible entry, in
order, and no other, exactly if the last entry is visible or there is none. -/
theorem visitsVisible_iff (sizeof : ObjType → ℕ) (fmt : Printf) (valueOnly : Bool) (offset : ℕ)
    (hh : AtHead vm r 0) (ht : vm.objects.get? r = some (.hash t)) (ho : HashObj.InOrder t es) :
    VisitsVisible sizeof fmt valueOnly offset r t vm ↔
      ∀ p, (HashObj.ordered fmt vm.objects t).getLast? = some p →
        (t.entries.getD p {}).value ≠ .null := by
  obtain ⟨hindex, hperm, -⟩ := HashObj.ordered_spec fmt vm.objects ho.sized ho.nodup_sequence
  have hlen := hperm.length_eq.trans ho.sized.length_slots
  have hstart : Between fmt r t vm vm [] (HashObj.ordered fmt vm.objects t) :=
    ⟨rfl, hh, ht, fun _ _ => rfl⟩
  have hvisible : ((t.inOrder fmt vm.objects).filter fun e => e.value ≠ .null).map
      (binding valueOnly) = roundsOf valueOnly t (HashObj.ordered fmt vm.objects t) := rfl
  constructor
  · rintro ⟨-, hall⟩ p hp hnull
    have hne : HashObj.ordered fmt vm.objects t ≠ [] := by
      intro hnil
      rw [hnil] at hp
      cases hp
    obtain ⟨vm', o₁, o₂, hrun, hb, hne', hnull'⟩ := exists_hashRun
      (show HashRun sizeof fmt valueOnly offset r t vm [] vm from .start) hstart hne rfl hindex hlen
      ⟨p, hp, hnull⟩
    have hexit := ((hall _ _ hrun).2).2 rfl
    rw [not_exits_of_null sizeof valueOnly offset hb hne' hindex hlen hnull'] at hexit
    cases hexit
  · intro hlast
    refine ⟨?_, fun bs vm' hrun => ?_⟩
    · rw [HashObj.visibleCount_eq hperm, List.length_map]
    · obtain ⟨o₁, o₂, hb, rfl⟩ := hrun.between hstart hindex hlen hlast
      rw [hvisible, hb.order, roundsOf_append]
      refine ⟨List.prefix_append _ _, ?_⟩
      rcases null_or_split t o₂ with hnull | ⟨z, p, w, rfl, hz, hp⟩
      · rcases List.eq_nil_or_concat' o₂ with rfl | ⟨l, q, rfl⟩
        · simp [exits_of_nil sizeof valueOnly offset hb hindex hlen, roundsOf]
        · refine absurd (hnull q (by simp)) (hlast q ?_)
          rw [hb.order, ← List.append_assoc, List.getLast?_concat]
      · -- an entry that is visible is left, and its round is missing
        obtain ⟨vm₁, hnext, -⟩ := next_of_split sizeof valueOnly offset hb hindex hlen hz hp
        rw [hnext, show z ++ p :: w = z ++ ([p] ++ w) by simp, roundsOf_append, roundsOf_append,
          roundsOf_null hz, roundsOf_singleton hp]
        simp [ForeachStep.exits]

end Loop

/-! ### Two tables -/

/-- A machine at the start of `foreach $key => $value (%hash)`. -/
def hashLoopVM (t : HashObj) : VM where
  stack := [.obj 1, .num 0]
  frames := [{ closure := 0, slots := 0 }]
  objects := [⟨1, false, .hash t⟩]

/-- A table with the key `true`. -/
def trueTable (value : Value) : HashObj where
  entries := (List.replicate 16 {}).set 2 ⟨.bool true, value, 1⟩
  count := 1
  nextSequence := 1

theorem atHead_hashLoopVM (t : HashObj) : AtHead (hashLoopVM t) 1 0 :=
  ⟨⟨[], rfl⟩, _, rfl, rfl⟩

theorem orderRun_trueTable (fmt : Printf) (value : Value)
    (hset : HashObj.set? fmt [] {} (.bool true) value = some (trueTable value)) :
    HashObj.OrderRun fmt (trueTable value) [.bool true] :=
  (HashObj.OrderRun.start {} rfl rfl).set [] (.bool true) value (by decide) hset

theorem visitsVisible_iff_trueTable :
    let fmt : Printf := ⟨fun _ => [], fun _ => []⟩
    let vm := hashLoopVM (trueTable (.num 1))
    VisitsVisible (fun _ => 0) fmt false 0 1 (trueTable (.num 1)) vm ↔
      ∀ p, (HashObj.ordered fmt vm.objects (trueTable (.num 1))).getLast? = some p →
        ((trueTable (.num 1)).entries.getD p {}).value ≠ .null := by
  intro fmt vm
  obtain ⟨es, ho, -⟩ := (orderRun_trueTable fmt (.num 1) (by decide)).inOrder
  exact visitsVisible_iff (fun _ => 0) fmt false 0 (atHead_hashLoopVM _) rfl ho

/-- A loop over a hash with one entry, which holds null, makes a round. -/
theorem not_visitsVisible_null :
    ¬∀ (sizeof : ObjType → ℕ) (fmt : Printf) (valueOnly : Bool) (offset : ℕ) (vm : VM) (r : Ref)
      (t : HashObj) (log : List Value), HashObj.OrderRun fmt t log → AtHead vm r 0 →
        vm.objects.get? r = some (.hash t) → VisitsVisible sizeof fmt valueOnly offset r t vm := by
  intro hall
  let fmt : Printf := ⟨fun _ => [], fun _ => []⟩
  have hrun : HashObj.OrderRun fmt (trueTable .null) [.bool true] :=
    orderRun_trueTable fmt .null (by decide)
  obtain ⟨-, hrounds⟩ := hall (fun _ => 0) fmt false 0 (hashLoopVM (trueTable .null)) 1
    (trueTable .null) _ hrun (atHead_hashLoopVM _) rfl
  have hexit := ((hrounds [] _ .start).2).2 (by decide)
  have hround : (foreachNext (fun _ => 0) fmt false 0 (hashLoopVM (trueTable .null))).exits = false :=
    by decide
  rw [hround] at hexit
  cases hexit

end VM

end Slp
