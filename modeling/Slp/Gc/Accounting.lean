import Mathlib.Data.List.Nodup
import Mathlib.Data.Nat.ModEq
import Slp.Gc.MarkSweep
import Slp.Vm.Basic

/-!
# The count of bytes

`vm->bytes_allocated` is raised where an object is linked by `track_object` or by the interner, and
lowered by the size of each object that a collection frees.  `slp_vm_new`, `init_compiler` and the
functions that open an I/O handle link their objects without raising it.

The ledger of a run has the addresses of these objects, and the sizes of those that were freed.  In
every run the count, these sizes and the sizes of the other objects are in balance modulo `2 ^ 64`
(`run_balanced`).  So the count is right as long as each of these objects is reachable whenever
there is a collection, and no longer (`accounts_iff`).
-/

namespace Slp

namespace Gc

variable {sizeof : ObjType → ℕ}

/-! ### Sizes -/

/-- The sum of the sizes of the objects. -/
def totalSize (sizeof : ObjType → ℕ) (h : Heap) : ℕ := (h.map fun c => objectSize sizeof c.obj).sum

@[simp] theorem totalSize_nil : totalSize sizeof [] = 0 := rfl

@[simp] theorem totalSize_cons (c : HeapCell) (h : Heap) :
    totalSize sizeof (c :: h) = objectSize sizeof c.obj + totalSize sizeof h := rfl

theorem totalSize_filter_add (sizeof : ObjType → ℕ) (p : HeapCell → Bool) (h : Heap) :
    totalSize sizeof (h.filter p) + totalSize sizeof (h.filter fun c => !p c) =
      totalSize sizeof h := by
  induction h with
  | nil => rfl
  | cons c h ih =>
    cases hp : p c <;> simp [hp] <;> omega

theorem totalSize_filter_le (p : HeapCell → Bool) (h : Heap) :
    totalSize sizeof (h.filter p) ≤ totalSize sizeof h := by
  have hsplit := totalSize_filter_add sizeof p h
  omega

theorem totalSize_map_unmark (h : Heap) : totalSize sizeof (h.map unmark) = totalSize sizeof h := by
  rw [totalSize, List.map_map]
  rfl

/-- The sweep subtracts the sizes of the objects it frees. -/
theorem sweepObjects_snd (h : Heap) (bytes : UInt64) :
    (sweepObjects sizeof h bytes).2 =
      bytes - UInt64.ofNat (totalSize sizeof (h.filter fun c => !c.isMarked)) := by
  induction h generalizing bytes with
  | nil => simp [sweepObjects]
  | cons c h ih =>
    rw [sweepObjects]
    cases hc : c.isMarked with
    | true => simp [hc, ih]
    | false =>
      simp only [hc, Bool.false_eq_true, if_false, ih, Bool.not_false, List.filter_cons_of_pos,
        totalSize_cons, UInt64.ofNat_add]
      grind

theorem rebuildInterned_bytes {vm vm' : VM} (h : rebuildInterned vm = some vm') :
    vm'.bytesAllocated = vm.bytesAllocated := by
  unfold rebuildInterned at h
  split at h
  · cases h; rfl
  · split_ifs at h with hzero
    · cases h; rfl
    · obtain ⟨filled, -, hvm⟩ := Option.bind_eq_some_iff.1 h
      cases hvm
      rfl

open Classical in
/-- What a collection leaves: the live objects, the count without the sizes of the others, and the
threshold that is derived from it. -/
theorem collect_eq {vm vm' : VM} (h : WellFormed vm) (hc : collect sizeof vm = some vm') :
    WellFormed vm' ∧ vm'.objects = vm.objects.filter (fun c => Live vm c.ref) ∧
      vm'.bytesAllocated = vm.bytesAllocated -
        UInt64.ofNat (totalSize sizeof (vm.objects.filter fun c => !decide (Live vm c.ref))) ∧
      vm'.nextGcThreshold = nextThreshold vm'.bytesAllocated := by
  obtain ⟨_, hc', hwf, hobj, -⟩ := exists_collect sizeof h
  obtain rfl := Option.some.inj (hc.symm.trans hc')
  refine ⟨hwf, hobj, ?_⟩
  obtain ⟨htrace, hgray⟩ := traceReferences_markState (markRoots_markState h)
  rw [collect] at hc
  cases hswept : rebuildInterned (sweep sizeof (traceReferences (markRoots vm))) with
  | none =>
    rw [hswept] at hc
    cases hc
  | some swept =>
    rw [hswept] at hc
    cases hc
    have hbytes : swept.bytesAllocated =
        (sweep sizeof (traceReferences (markRoots vm))).bytesAllocated :=
      rebuildInterned_bytes hswept
    refine ⟨?_, rfl⟩
    have hfreed : (vm.objects.filter fun c => !decide (Live vm c.ref)) =
        ((traceReferences (markRoots vm)).objects.filter fun c => !c.isMarked).map unmark := by
      rw [← htrace.map_unmark h, List.filter_map]
      congr 1
      refine List.filter_congr fun c hc => ?_
      have hiff := htrace.isMarked_iff h hgray hc
      cases hm : c.isMarked <;> simp_all [unmark]
    rw [hfreed, totalSize_map_unmark]
    show swept.bytesAllocated = _
    rw [hbytes, sweep]
    dsimp only
    rw [sweepObjects_snd]
    have hrest := htrace.marking.rest
    rw [hrest]

/-! ### The ledger -/

/-- The machine, with the addresses of the linked objects whose size was not added to the count, and
the sizes of those that were freed. -/
structure Ledger where
  vm : VM
  unaccounted : List Ref
  lost : ℕ

/-- The linked objects whose size was added. -/
def Ledger.tracked (L : Ledger) : Heap := L.vm.objects.filter fun c => c.ref ∉ L.unaccounted

/-- An object linked by hand, as in `init_compiler` and in the functions that open a handle. -/
def link (vm : VM) (o : Obj) : VM :=
  { vm with objects := ⟨vm.objects.freshRef, false, o⟩ :: vm.objects }

/-- `slp_vm_new`, up to the builtins. -/
def vmNew : VM :=
  let vm : VM := { nextGcThreshold := 1024 * 1024 }
  let vm := { link vm (.hash {}) with globals := some vm.objects.freshRef }
  { link vm (.hash {}) with natives := some vm.objects.freshRef }

/-- What a run is made of. -/
inductive Event where
  /-- An allocation with `track_object`. -/
  | track (o : Obj)
  /-- A call of `slp_vm_intern_string`. -/
  | intern (chars : Bytes)
  /-- A function made by `init_compiler`: a script, an `eval`, a closure. -/
  | initCompiler
  /-- A handle made by `allocate`, `openf`, `connect`, `listen`, `exec` or `fork`. -/
  | openHandle
  /-- Any other work on the machine. -/
  | script
  /-- A collection. -/
  | collect

/-- The object stays where it is and what it is; a string is not written to. -/
structure Rewrites (c c' : HeapCell) : Prop where
  ref : c'.ref = c.ref
  isMarked : c'.isMarked = c.isMarked
  type : c'.obj.type = c.obj.type
  string : ∀ s, c.obj = .string s → c'.obj = .string s

/-- Work that neither links objects nor touches what belongs to the collector. -/
structure Works (vm vm' : VM) : Prop where
  objects : List.Forall₂ Rewrites vm.objects vm'.objects
  interned : vm'.interned = vm.interned
  internedCount : vm'.internedCount = vm.internedCount
  bytesAllocated : vm'.bytesAllocated = vm.bytesAllocated
  nextGcThreshold : vm'.nextGcThreshold = vm.nextGcThreshold
  gray : vm'.gray = vm.gray

/-- The objects of `h` that are not linked in `h'`. -/
def freed (h h' : Heap) : Heap := h.filter fun c => (h'.get? c.ref).isNone

/-- One event.  A collection happens where the count is above the threshold. -/
inductive Step (sizeof : ObjType → ℕ) (L : Ledger) : Event → Ledger → Prop
  | track {o : Obj} (ho : o.type ≠ .string) :
    Step sizeof L (.track o) { L with vm := (L.vm.alloc sizeof o).1 }
  | intern {chars : Bytes} {vm : VM} {r : Ref}
    (hvm : Intern.internString (sizeof .string) L.vm chars = some (vm, r)) :
    Step sizeof L (.intern chars) { L with vm }
  | initCompiler : Step sizeof L .initCompiler
    { L with vm := link L.vm (.function {}), unaccounted := L.vm.objects.freshRef :: L.unaccounted }
  | openHandle : Step sizeof L .openHandle
    { L with vm := link L.vm (.ioHandle {}), unaccounted := L.vm.objects.freshRef :: L.unaccounted }
  | script {vm : VM} (hvm : Works L.vm vm) : Step sizeof L .script { L with vm }
  | collect {vm : VM} (hdue : L.vm.bytesAllocated > L.vm.nextGcThreshold)
    (hvm : collect sizeof L.vm = some vm) : Step sizeof L .collect
    { vm
      unaccounted := L.unaccounted.filter fun r => (vm.objects.get? r).isSome
      lost := L.lost +
        totalSize sizeof ((freed L.vm.objects vm.objects).filter (·.ref ∈ L.unaccounted)) }

/-- An event of a run, with the ledgers before and after it. -/
structure Transition where
  before : Ledger
  event : Event
  after : Ledger

/-- A run of the machine from `slp_vm_new` on, the last event first.  An allocation only succeeds if
there is an address for each byte; these have fewer than 62 bits. -/
inductive Run (sizeof : ObjType → ℕ) : List Transition → Ledger → Prop
  | start : Run sizeof [] ⟨vmNew, [1, 0], 0⟩
  | step {ts : List Transition} {L L' : Ledger} {e : Event} (hrun : Run sizeof ts L)
    (hstep : Step sizeof L e L') (hfits : totalSize sizeof L'.vm.objects < 2 ^ 62) :
    Run sizeof (⟨L, e, L'⟩ :: ts) L'

/-- The accounting of an event: what it frees had been added to the count, whose subtraction does not
wrap; the count covers the objects that were added to it, and so does the threshold that a
collection derives from it. -/
structure Accounts (sizeof : ObjType → ℕ) (t : Transition) : Prop where
  freed : ∀ c ∈ freed t.before.vm.objects t.after.vm.objects, c.ref ∉ t.before.unaccounted
  nowrap : totalSize sizeof (Gc.freed t.before.vm.objects t.after.vm.objects) ≤
    t.before.vm.bytesAllocated.toNat
  covers : totalSize sizeof t.after.tracked ≤ t.after.vm.bytesAllocated.toNat
  threshold : t.event = .collect →
    totalSize sizeof t.after.tracked ≤ t.after.vm.nextGcThreshold.toNat

/-! ### The machine of a run is well formed -/

section WellFormed

variable {vm vm' : VM}

/-- The interner only depends on the strings. -/
theorem interned_of_strings (h : Intern.Interned vm) (hn : (vm'.objects.map (·.ref)).Nodup)
    (hback : ∀ c' ∈ vm'.objects, ∀ s, c'.obj = .string s →
      ∃ c ∈ vm.objects, c.ref = c'.ref ∧ c.obj = .string s)
    (hstrings : vm'.objects.strings = vm.objects.strings) (htable : vm'.interned = vm.interned)
    (hcount : vm'.internedCount = vm.internedCount) : Intern.Interned vm' where
  nodup := hn
  hash_eq c' hc' s hs := by
    obtain ⟨c, hc, -, hcs⟩ := hback c' hc' s hs
    exact h.hash_eq c hc s hcs
  chars_inj c' hc' d' hd' s t hs ht hst := by
    obtain ⟨c, hc, hcr, hcs⟩ := hback c' hc' s hs
    obtain ⟨d, hd, hdr, hds⟩ := hback d' hd' t ht
    have hcd : c = d := h.chars_inj c hc d hd s t hcs hds hst
    exact List.inj_on_of_nodup_map hn hc' hd' (by rw [← hcr, ← hdr, hcd])
  count_eq := by rw [hcount, hstrings, h.count_eq]
  table := by
    have hhash : ∀ r ∈ vm.objects.strings, Intern.hashAt vm'.objects r =
        Intern.hashAt vm.objects r := by
      intro r hr
      obtain ⟨c', hc', rfl, s, hs⟩ := Intern.mem_strings.1 (hstrings ▸ hr)
      obtain ⟨c, hc, hcr, hcs⟩ := hback c' hc' s hs
      rw [Intern.hashAt, Intern.hashAt, Intern.string?_of_mem hn hc' hs, ← hcr,
        Intern.string?_of_mem h.nodup hc hcs]
    have htab := h.table
    rw [htable, hstrings, hcount]
    cases ht : vm.interned with
    | none =>
      rw [ht] at htab
      exact htab
    | some table =>
      rw [ht] at htab
      obtain ⟨⟨hlen, hperm, hchain⟩, hload⟩ := htab
      refine ⟨⟨hlen, hstrings ▸ hperm, hchain.congr fun r hr => ?_⟩, hload⟩
      rw [Intern.home, Intern.home, hhash r (hperm.mem_iff.1 hr)]

theorem strings_cons_of_type {c : HeapCell} (hc : c.obj.type ≠ .string) (h : Heap) :
    Heap.strings (c :: h) = h.strings := by
  rw [strings_cons]
  cases ho : c.obj
  case string s =>
    rw [ho] at hc
    exact absurd rfl hc
  all_goals rfl

theorem freshRef_not_mem (h : Heap) : h.freshRef ∉ h.map (·.ref) := by
  intro hm
  obtain ⟨c, hc, heq⟩ := List.mem_map.1 hm
  exact Nat.ne_of_lt (Heap.lt_freshRef hc) heq

/-- A new object that is no string. -/
theorem WellFormed.link (h : WellFormed vm) {o : Obj} (ho : o.type ≠ .string)
    (hobj : vm'.objects = ⟨vm.objects.freshRef, false, o⟩ :: vm.objects)
    (hrest : vm'.interned = vm.interned ∧ vm'.internedCount = vm.internedCount ∧
      vm'.gray = vm.gray) : WellFormed vm' := by
  obtain ⟨htable, hcount, hgray⟩ := hrest
  have hstring : ∀ s, o ≠ .string s := by
    rintro s rfl
    exact ho rfl
  refine ⟨interned_of_strings h.interned ?_ ?_ ?_ htable hcount, ?_, hgray.trans h.gray⟩
  · rw [hobj, List.map_cons, List.nodup_cons]
    exact ⟨freshRef_not_mem _, h.interned.nodup⟩
  · intro c' hc' s hs
    rw [hobj] at hc'
    rcases List.mem_cons.1 hc' with rfl | hc'
    · exact absurd hs (hstring s)
    · exact ⟨c', hc', rfl, hs⟩
  · rw [hobj]
    exact strings_cons_of_type ho _
  · intro c hc
    rw [hobj] at hc
    rcases List.mem_cons.1 hc with rfl | hc
    · rfl
    · exact h.unmarked c hc

/-- What interning does: nothing, or a new string that is added to the count. -/
theorem internString_cases {n : ℕ} {chars : Bytes} {r : Ref}
    (h : Intern.internString n vm chars = some (vm', r)) :
    vm' = vm ∨ ∃ interned internedCount, vm' = { vm with
      objects := Intern.newString vm.objects.freshRef chars :: vm.objects
      bytesAllocated := vm.bytesAllocated + UInt64.ofNat (n + chars.length + 1)
      interned := interned
      internedCount := internedCount } := by
  unfold Intern.internString at h
  split at h
  · cases h
    exact .inl rfl
  · obtain ⟨table, -, h⟩ := Option.bind_eq_some_iff.1 h
    obtain ⟨filled, -, h⟩ := Option.bind_eq_some_iff.1 h
    cases h
    exact .inr ⟨_, _, rfl⟩

theorem WellFormed.intern (h : WellFormed vm) {n : ℕ} {chars : Bytes} {r : Ref}
    (hvm : Intern.internString n vm chars = some (vm', r)) : WellFormed vm' := by
  obtain ⟨_, _, heq, hinterned, -⟩ := h.interned.exists_internString n chars
  cases hvm.symm.trans heq
  refine ⟨hinterned, ?_, ?_⟩
  · intro c hc
    rcases internString_cases hvm with rfl | ⟨_, _, rfl⟩
    · exact h.unmarked c hc
    · rcases List.mem_cons.1 hc with rfl | hc
      · rfl
      · exact h.unmarked c hc
  · rcases internString_cases hvm with rfl | ⟨_, _, rfl⟩
    · exact h.gray
    · exact h.gray

theorem map_ref_of_rewrites {h h' : Heap} (hobj : List.Forall₂ Rewrites h h') :
    h'.map (·.ref) = h.map (·.ref) := by
  induction hobj with
  | nil => rfl
  | cons hc _ ih => rw [List.map_cons, List.map_cons, hc.ref, ih]

/-- A string is the same string; another object has the same kind. -/
theorem Rewrites.cases {c c' : HeapCell} (hc : Rewrites c c') :
    (∃ s, c.obj = .string s ∧ c'.obj = .string s) ∨
      c.obj.type ≠ .string ∧ c'.obj.type = c.obj.type := by
  cases ho : c.obj
  case string s => exact .inl ⟨s, rfl, hc.string s ho⟩
  all_goals
    refine .inr ⟨?_, by rw [hc.type, ho]⟩
    rintro ⟨⟩

theorem objectSize_of_type {o : Obj} (ho : o.type ≠ .string) :
    objectSize sizeof o = sizeof o.type := by
  cases o <;> first | rfl | exact absurd rfl ho

theorem totalSize_of_rewrites {h h' : Heap} (hobj : List.Forall₂ Rewrites h h') (u : List Ref) :
    totalSize sizeof (h'.filter fun c => c.ref ∉ u) =
      totalSize sizeof (h.filter fun c => c.ref ∉ u) := by
  induction hobj with
  | nil => rfl
  | @cons c c' h h' hc _ ih =>
    have hsize : objectSize sizeof c'.obj = objectSize sizeof c.obj := by
      rcases hc.cases with ⟨s, hs, hs'⟩ | ⟨htype, htype'⟩
      · rw [hs, hs']
      · rw [objectSize_of_type htype, objectSize_of_type (htype' ▸ htype), htype']
    by_cases hu : c.ref ∈ u
    · simpa [hc.ref, hu] using ih
    · simpa [hc.ref, hu, hsize] using ih

theorem strings_of_rewrites {h h' : Heap} (hobj : List.Forall₂ Rewrites h h') :
    h'.strings = h.strings := by
  induction hobj with
  | nil => rfl
  | cons hc _ ih =>
    rcases hc.cases with ⟨s, hs, hs'⟩ | ⟨htype, htype'⟩
    · rw [strings_cons, strings_cons, hs, hs', hc.ref, ih]
    · rw [strings_cons_of_type htype, strings_cons_of_type (htype' ▸ htype), ih]

theorem exists_of_rewrites {h h' : Heap} (hobj : List.Forall₂ Rewrites h h') {c' : HeapCell}
    (hc' : c' ∈ h') : ∃ c ∈ h, Rewrites c c' := by
  induction hobj with
  | nil => cases hc'
  | cons hc _ ih =>
    rcases List.mem_cons.1 hc' with rfl | hc'
    · exact ⟨_, List.mem_cons_self, hc⟩
    · obtain ⟨c, hm, hcc⟩ := ih hc'
      exact ⟨c, List.mem_cons_of_mem _ hm, hcc⟩

theorem WellFormed.works (h : WellFormed vm) (hw : Works vm vm') : WellFormed vm' := by
  have hrefs := map_ref_of_rewrites hw.objects
  refine ⟨interned_of_strings h.interned (hrefs ▸ h.interned.nodup) ?_
    (strings_of_rewrites hw.objects) hw.interned hw.internedCount, ?_, hw.gray.trans h.gray⟩
  · intro c' hc' s hs
    obtain ⟨c, hc, hcc⟩ := exists_of_rewrites hw.objects hc'
    refine ⟨c, hc, hcc.ref.symm, ?_⟩
    rcases hcc.cases with ⟨t, ht, ht'⟩ | ⟨htype, htype'⟩
    · rw [ht, ← ht', hs]
    · rw [hs] at htype'
      exact absurd htype'.symm htype
  · intro c' hc'
    obtain ⟨c, hc, hcc⟩ := exists_of_rewrites hw.objects hc'
    exact hcc.isMarked.trans (h.unmarked c hc)

end WellFormed

/-! ### The balance -/

section Balance

variable {L L' : Ledger} {e : Event} {ts : List Transition}

/-- The balance of a ledger, modulo the size of the count. -/
structure Balanced (sizeof : ObjType → ℕ) (L : Ledger) : Prop where
  wf : WellFormed L.vm
  linked : ∀ r ∈ L.unaccounted, ∃ c ∈ L.vm.objects, c.ref = r
  balance : L.vm.bytesAllocated.toNat + L.lost ≡ totalSize sizeof L.tracked [MOD 2 ^ 64]

theorem toNat_add_ofNat (bytes : UInt64) (n : ℕ) :
    (bytes + UInt64.ofNat n).toNat ≡ bytes.toNat + n [MOD 2 ^ 64] := by
  rw [UInt64.toNat_add, UInt64.toNat_ofNat']
  exact (Nat.mod_modEq _ _).trans ((Nat.ModEq.refl _).add (Nat.mod_modEq _ _))

theorem toNat_sub_ofNat (bytes : UInt64) (n : ℕ) :
    (bytes - UInt64.ofNat n).toNat + n ≡ bytes.toNat [MOD 2 ^ 64] := by
  have hadd := toNat_add_ofNat (bytes - UInt64.ofNat n) n
  rw [UInt64.sub_add_cancel] at hadd
  exact hadd.symm

theorem Balanced.freshRef (h : Balanced sizeof L) : L.vm.objects.freshRef ∉ L.unaccounted := by
  intro hr
  obtain ⟨c, hc, heq⟩ := h.linked _ hr
  exact Nat.ne_of_lt (Heap.lt_freshRef hc) heq

/-- An object is linked and its size is added. -/
theorem Balanced.add (h : Balanced sizeof L) {vm : VM} {o : Obj} (hwf : WellFormed vm)
    (hobj : vm.objects = ⟨L.vm.objects.freshRef, false, o⟩ :: L.vm.objects)
    (hbytes : vm.bytesAllocated = L.vm.bytesAllocated + UInt64.ofNat (objectSize sizeof o)) :
    Balanced sizeof { L with vm } where
  wf := hwf
  linked r hr := by
    obtain ⟨c, hc, heq⟩ := h.linked r hr
    exact ⟨c, hobj ▸ List.mem_cons_of_mem _ hc, heq⟩
  balance := by
    have htracked : Ledger.tracked { L with vm } =
        ⟨L.vm.objects.freshRef, false, o⟩ :: L.tracked := by
      rw [Ledger.tracked, hobj, List.filter_cons_of_pos (by simpa using h.freshRef)]
      rfl
    rw [htracked, totalSize_cons, Nat.add_comm (objectSize sizeof o)]
    show vm.bytesAllocated.toNat + L.lost ≡ _ [MOD 2 ^ 64]
    rw [hbytes]
    calc (L.vm.bytesAllocated + UInt64.ofNat (objectSize sizeof o)).toNat + L.lost
        ≡ L.vm.bytesAllocated.toNat + objectSize sizeof o + L.lost [MOD 2 ^ 64] :=
          (toNat_add_ofNat _ _).add_right _
      _ = L.vm.bytesAllocated.toNat + L.lost + objectSize sizeof o := by omega
      _ ≡ totalSize sizeof L.tracked + objectSize sizeof o [MOD 2 ^ 64] := h.balance.add_right _

/-- An object is linked, and its size is not added. -/
theorem Balanced.link (h : Balanced sizeof L) {o : Obj} (ho : o.type ≠ .string) :
    Balanced sizeof
      { L with vm := link L.vm o, unaccounted := L.vm.objects.freshRef :: L.unaccounted } where
  wf := h.wf.link ho rfl ⟨rfl, rfl, rfl⟩
  linked r hr := by
    rcases List.mem_cons.1 hr with rfl | hr
    · exact ⟨_, List.mem_cons_self, rfl⟩
    · obtain ⟨c, hc, heq⟩ := h.linked r hr
      exact ⟨c, List.mem_cons_of_mem _ hc, heq⟩
  balance := by
    have htracked : Ledger.tracked
        { L with vm := Gc.link L.vm o, unaccounted := L.vm.objects.freshRef :: L.unaccounted } =
        L.tracked := by
      show (HeapCell.mk L.vm.objects.freshRef false o :: L.vm.objects).filter _ = _
      rw [List.filter_cons_of_neg (by simp)]
      refine List.filter_congr fun c hc => ?_
      have hne := Nat.ne_of_lt (Heap.lt_freshRef hc)
      simp [hne]
    rw [htracked]
    exact h.balance

theorem Balanced.works (h : Balanced sizeof L) {vm : VM} (hvm : Works L.vm vm) :
    Balanced sizeof { L with vm } where
  wf := h.wf.works hvm
  linked r hr := by
    obtain ⟨c, hc, heq⟩ := h.linked r hr
    have hmem : r ∈ vm.objects.map (·.ref) := by
      rw [map_ref_of_rewrites hvm.objects, ← heq]
      exact List.mem_map_of_mem hc
    exact List.mem_map.1 hmem
  balance := by
    show vm.bytesAllocated.toNat + L.lost ≡ _ [MOD 2 ^ 64]
    rw [hvm.bytesAllocated, Ledger.tracked, totalSize_of_rewrites hvm.objects]
    exact h.balance

open Classical in
/-- What a collection frees are the objects that are not live. -/
theorem freed_collect {vm vm' : VM} (h : WellFormed vm) (hvm : collect sizeof vm = some vm') :
    freed vm.objects vm'.objects = vm.objects.filter fun c => !decide (Live vm c.ref) := by
  obtain ⟨-, hobj, -⟩ := collect_eq h hvm
  refine List.filter_congr fun c hc => ?_
  by_cases hlive : Live vm c.ref
  · have hmem : c ∈ vm'.objects := by
      rw [hobj]
      exact List.mem_filter.2 ⟨hc, decide_eq_true hlive⟩
    have hn : (vm'.objects.map (·.ref)).Nodup := by
      rw [hobj]
      exact (List.filter_sublist.map _).nodup h.interned.nodup
    rw [Heap.get?_of_mem hn hmem]
    simp [hlive]
  · have hnone : vm'.objects.get? c.ref = none := by
      cases hget : vm'.objects.get? c.ref with
      | none => rfl
      | some o =>
        obtain ⟨d, hd, hdc, -⟩ := Heap.exists_mem_of_get? hget
        rw [hobj] at hd
        have hdlive := of_decide_eq_true (List.mem_filter.1 hd).2
        exact absurd (hdc ▸ hdlive) hlive
    simp [hnone, hlive]

/-- The tracked objects that a collection leaves and those that it frees. -/
theorem tracked_collect {vm : VM} (h : WellFormed L.vm) (hvm : collect sizeof L.vm = some vm) :
    totalSize sizeof (vm.objects.filter fun c => c.ref ∉ L.unaccounted) +
      totalSize sizeof ((freed L.vm.objects vm.objects).filter fun c => c.ref ∉ L.unaccounted) =
    totalSize sizeof L.tracked := by
  classical
  rw [freed_collect h hvm, (collect_eq h hvm).2.1, Ledger.tracked,
    ← totalSize_filter_add sizeof (fun c => decide (Live L.vm c.ref))
      (L.vm.objects.filter fun c => c.ref ∉ L.unaccounted),
    List.filter_comm (fun c : HeapCell => decide (Live L.vm c.ref)),
    List.filter_comm (fun c : HeapCell => !decide (Live L.vm c.ref))]

/-- The other objects that it frees. -/
theorem lost_collect (sizeof : ObjType → ℕ) (L : Ledger) (vm : VM) :
    totalSize sizeof ((freed L.vm.objects vm.objects).filter (·.ref ∈ L.unaccounted)) +
      totalSize sizeof ((freed L.vm.objects vm.objects).filter fun c => c.ref ∉ L.unaccounted) =
    totalSize sizeof (freed L.vm.objects vm.objects) := by
  rw [← totalSize_filter_add sizeof (fun c => decide (c.ref ∈ L.unaccounted)) (freed _ _)]
  simp

/-- What is tracked after a collection. -/
theorem filter_unaccounted (vm : VM) :
    (vm.objects.filter fun c =>
      c.ref ∉ L.unaccounted.filter fun r => (vm.objects.get? r).isSome) =
    vm.objects.filter fun c => c.ref ∉ L.unaccounted := by
  refine List.filter_congr fun c hc => ?_
  have hsome : (vm.objects.get? c.ref).isSome := by
    rw [Heap.get?, Option.isSome_map, List.find?_isSome]
    exact ⟨c, hc, beq_self_eq_true _⟩
  simp [hsome]

theorem Balanced.collect (h : Balanced sizeof L) {vm : VM}
    (hvm : Gc.collect sizeof L.vm = some vm) : Balanced sizeof
      { vm
        unaccounted := L.unaccounted.filter fun r => (vm.objects.get? r).isSome
        lost := L.lost +
          totalSize sizeof ((freed L.vm.objects vm.objects).filter (·.ref ∈ L.unaccounted)) } where
  wf := (collect_eq h.wf hvm).1
  linked r hr := by
    have hsome := (List.mem_filter.1 hr).2
    obtain ⟨o, ho⟩ := Option.isSome_iff_exists.1 hsome
    obtain ⟨c, hc, heq, -⟩ := Heap.exists_mem_of_get? ho
    exact ⟨c, hc, heq⟩
  balance := by
    have hbytes := (collect_eq h.wf hvm).2.2.1
    rw [← freed_collect h.wf hvm] at hbytes
    have hsub := toNat_sub_ofNat L.vm.bytesAllocated
      (totalSize sizeof (freed L.vm.objects vm.objects))
    rw [← hbytes] at hsub
    have htracked := tracked_collect h.wf hvm
    have hlost := lost_collect sizeof L vm
    rw [Ledger.tracked, filter_unaccounted]
    dsimp only
    set kept := totalSize sizeof (vm.objects.filter fun c => c.ref ∉ L.unaccounted)
    set gone := totalSize sizeof
      ((freed L.vm.objects vm.objects).filter fun c => c.ref ∉ L.unaccounted)
    set lost := totalSize sizeof ((freed L.vm.objects vm.objects).filter (·.ref ∈ L.unaccounted))
    refine Nat.ModEq.add_right_cancel' gone ?_
    calc vm.bytesAllocated.toNat + (L.lost + lost) + gone
        = vm.bytesAllocated.toNat + totalSize sizeof (freed L.vm.objects vm.objects) + L.lost := by
          omega
      _ ≡ L.vm.bytesAllocated.toNat + L.lost [MOD 2 ^ 64] := hsub.add_right _
      _ ≡ totalSize sizeof L.tracked [MOD 2 ^ 64] := h.balance
      _ = kept + gone := htracked.symm

theorem Step.balanced (h : Balanced sizeof L) (hstep : Step sizeof L e L') :
    Balanced sizeof L' := by
  cases hstep with
  | track ho =>
    exact h.add (h.wf.link ho rfl ⟨rfl, rfl, rfl⟩) rfl rfl
  | intern hvm =>
    have hwf := h.wf.intern hvm
    rcases internString_cases hvm with rfl | ⟨_, _, rfl⟩
    · exact h
    · exact h.add hwf rfl rfl
  | initCompiler => exact h.link fun hno => by cases hno
  | openHandle => exact h.link fun hno => by cases hno
  | script hvm => exact h.works hvm
  | collect _ hvm => exact h.collect hvm

theorem vmNew_wellFormed : WellFormed vmNew := by
  have hempty : WellFormed { nextGcThreshold := 1024 * 1024 } := by
    refine ⟨⟨List.nodup_nil, ?_, ?_, rfl, rfl⟩, ?_, rfl⟩ <;> intro c hc <;> cases hc
  have hglobals : WellFormed
      { Gc.link { nextGcThreshold := 1024 * 1024 } (.hash {}) with globals := some 0 } :=
    hempty.link (o := .hash {}) (fun hno => by cases hno) rfl ⟨rfl, rfl, rfl⟩
  exact hglobals.link (o := .hash {}) (fun hno => by cases hno) rfl ⟨rfl, rfl, rfl⟩

theorem start_balanced : Balanced sizeof ⟨vmNew, [1, 0], 0⟩ :=
  ⟨vmNew_wellFormed, by decide, rfl⟩

/-- **The balance of a run.**  The count and what was lost of it are the sizes of the objects that
were added to it, modulo `2 ^ 64`. -/
theorem run_balanced (hrun : Run sizeof ts L) : Balanced sizeof L := by
  induction hrun with
  | start => exact start_balanced
  | step _ hstep _ ih => exact hstep.balanced ih

/-- Each event of a run begins with the ledger of a run. -/
theorem Run.before (hrun : Run sizeof ts L) {t : Transition} (ht : t ∈ ts) :
    Balanced sizeof t.before ∧ Step sizeof t.before t.event t.after := by
  induction hrun with
  | start => cases ht
  | step hrun hstep _ ih =>
    rcases List.mem_cons.1 ht with rfl | ht
    · exact ⟨run_balanced hrun, hstep⟩
    · exact ih ht

/-- Only a collection frees objects. -/
theorem Step.freed_eq_nil (hstep : Step sizeof L e L') (he : e ≠ .collect) :
    freed L.vm.objects L'.vm.objects = [] := by
  have hkept : ∀ r ∈ L.vm.objects.map (·.ref), r ∈ L'.vm.objects.map (·.ref) := by
    cases hstep with
    | track => exact fun r hr => List.mem_cons_of_mem _ hr
    | intern hvm =>
      rcases internString_cases hvm with rfl | ⟨_, _, rfl⟩
      · exact fun r hr => hr
      · exact fun r hr => List.mem_cons_of_mem _ hr
    | initCompiler => exact fun r hr => List.mem_cons_of_mem _ hr
    | openHandle => exact fun r hr => List.mem_cons_of_mem _ hr
    | script hvm =>
      show ∀ r ∈ _, r ∈ List.map _ _
      rw [map_ref_of_rewrites hvm.objects]
      exact fun r hr => hr
    | collect => exact absurd rfl he
  refine List.filter_eq_nil_iff.2 fun c hc => ?_
  obtain ⟨d, hd, hdc⟩ := List.mem_map.1 (hkept _ (List.mem_map_of_mem hc))
  have hsome : (L'.vm.objects.get? c.ref).isSome := by
    rw [Heap.get?, Option.isSome_map, List.find?_isSome]
    exact ⟨d, hd, by simpa using hdc⟩
  simpa [Option.isSome_iff_ne_none] using hsome

/-- The condition: what was not added to the count is live whenever there is a collection. -/
def Pinned (t : Transition) : Prop :=
  t.event = .collect → ∀ r ∈ t.before.unaccounted, Live t.before.vm r

/-- Under the condition an event frees only what was added to the count. -/
theorem not_mem_unaccounted (h : Balanced sizeof L) (hstep : Step sizeof L e L')
    (hpinned : Pinned ⟨L, e, L'⟩) {c : HeapCell}
    (hc : c ∈ freed L.vm.objects L'.vm.objects) : c.ref ∉ L.unaccounted := by
  classical
  by_cases he : e = .collect
  · subst he
    cases hstep with
    | collect _ hvm =>
      intro hr
      rw [freed_collect h.wf hvm] at hc
      have hlive : Live L.vm c.ref := hpinned rfl _ hr
      simpa [hlive] using (List.mem_filter.1 hc).2
  · rw [hstep.freed_eq_nil he] at hc
    cases hc

theorem run_lost (hrun : Run sizeof ts L) (hpinned : ∀ t ∈ ts, Pinned t) : L.lost = 0 := by
  induction hrun with
  | start => rfl
  | @step ts L L' e hrun hstep _ ih =>
    have hlost := ih fun t ht => hpinned t (List.mem_cons_of_mem _ ht)
    have hfreed := @not_mem_unaccounted sizeof L L' e (run_balanced hrun) hstep
      (hpinned _ List.mem_cons_self)
    cases hstep with
    | collect _ hvm =>
      have hnil : (freed L.vm.objects _).filter (·.ref ∈ L.unaccounted) = [] :=
        List.filter_eq_nil_iff.2 fun c hc => by simpa using hfreed hc
      show L.lost + totalSize sizeof ((freed L.vm.objects _).filter _) = 0
      rw [hlost, hnil]
      rfl
    | _ => exact hlost

/-- Under the condition the count is exact. -/
theorem run_exact (hrun : Run sizeof ts L) (hpinned : ∀ t ∈ ts, Pinned t) :
    L.vm.bytesAllocated.toNat = totalSize sizeof L.tracked ∧
      totalSize sizeof L.tracked < 2 ^ 62 := by
  have hfits : totalSize sizeof L.tracked < 2 ^ 62 := by
    cases hrun with
    | start => exact Nat.two_pow_pos 62
    | step _ _ hfits => exact Nat.lt_of_le_of_lt (totalSize_filter_le _ _) hfits
  refine ⟨?_, hfits⟩
  have hbalance := (run_balanced hrun).balance
  rw [run_lost hrun hpinned, Nat.add_zero] at hbalance
  exact hbalance.eq_of_lt_of_lt (UInt64.toNat_lt _) (Nat.lt_trans hfits (by decide))

/-- Even then the objects that were not added are missing from the count, from `slp_vm_new` on. -/
theorem run_total (hrun : Run sizeof ts L) (hpinned : ∀ t ∈ ts, Pinned t) :
    totalSize sizeof L.vm.objects = L.vm.bytesAllocated.toNat +
      totalSize sizeof (L.vm.objects.filter (·.ref ∈ L.unaccounted)) := by
  have hsplit := totalSize_filter_add sizeof (fun c => decide (c.ref ∈ L.unaccounted))
    L.vm.objects
  have htracked : L.tracked = L.vm.objects.filter fun c => !decide (c.ref ∈ L.unaccounted) := by
    simp [Ledger.tracked]
  rw [(run_exact hrun hpinned).1, htracked]
  omega

theorem le_nextThreshold {bytes : UInt64} (h : bytes.toNat < 2 ^ 62) :
    bytes.toNat ≤ (nextThreshold bytes).toNat := by
  have hhalf : (bytes * 3 / 2).toNat = bytes.toNat * 3 / 2 := by
    rw [UInt64.toNat_div, UInt64.toNat_mul]
    show bytes.toNat * 3 % 2 ^ 64 / 2 = _
    rw [Nat.mod_eq_of_lt (by omega)]
  unfold nextThreshold
  dsimp only
  split_ifs with hsmall
  · rw [UInt64.lt_iff_toNat_lt, hhalf] at hsmall
    change _ < 262144 at hsmall
    show bytes.toNat ≤ 262144
    omega
  · rw [hhalf]
    omega

theorem accounts_of_pinned (hrun : Run sizeof ts L) (hpinned : ∀ t ∈ ts, Pinned t) :
    ∀ t ∈ ts, Accounts sizeof t := by
  induction hrun with
  | start => intro t ht; cases ht
  | @step ts L L' e hrun hstep hfits ih =>
    have hbefore := fun t ht => hpinned t (List.mem_cons_of_mem _ ht)
    intro t ht
    rcases List.mem_cons.1 ht with rfl | ht
    · obtain ⟨hexact, -⟩ := run_exact hrun hbefore
      obtain ⟨hexact', hfits'⟩ := run_exact (hrun.step hstep hfits) hpinned
      have hfreed : ∀ c ∈ freed L.vm.objects L'.vm.objects, c.ref ∉ L.unaccounted := fun c hc =>
        not_mem_unaccounted (run_balanced hrun) hstep (hpinned _ List.mem_cons_self) hc
      refine ⟨hfreed, ?_, hexact'.ge, ?_⟩
      · -- what is freed is a part of what is tracked
        have hpart : freed L.vm.objects L'.vm.objects =
            L.tracked.filter fun c => (L'.vm.objects.get? c.ref).isNone := by
          rw [Ledger.tracked, List.filter_comm]
          refine (List.filter_eq_self.2 fun c hc => ?_).symm
          simpa using hfreed c hc
        show totalSize sizeof (freed L.vm.objects L'.vm.objects) ≤ L.vm.bytesAllocated.toNat
        rw [hexact, hpart]
        exact totalSize_filter_le _ _
      · rintro rfl
        cases hstep with
        | collect _ hvm =>
          have hthreshold := (collect_eq (run_balanced hrun).wf hvm).2.2.2
          rw [← hexact'] at hfits' ⊢
          exact hthreshold ▸ le_nextThreshold hfits'
    · exact ih hbefore t ht

theorem pinned_of_accounts (hrun : Run sizeof ts L) (haccounts : ∀ t ∈ ts, Accounts sizeof t) :
    ∀ t ∈ ts, Pinned t := by
  classical
  intro t ht he r hr
  obtain ⟨before, event, after⟩ := t
  obtain ⟨hbalanced, hstep⟩ := hrun.before ht
  dsimp only at hbalanced hstep he hr ⊢
  cases hstep with
  | @collect vm _ hvm =>
    obtain ⟨c, hc, rfl⟩ := hbalanced.linked r hr
    by_contra hlive
    have hmem : c ∈ freed before.vm.objects vm.objects := by
      rw [freed_collect hbalanced.wf hvm]
      exact List.mem_filter.2 ⟨hc, by simpa using hlive⟩
    exact (haccounts _ ht).freed c hmem hr
  | _ => cases he

/-- **The count of a run.**  Every event of the run is accounted for exactly if the globals, the
natives, the functions the compiler made and the handles that were opened are live whenever there
is a collection. -/
theorem accounts_iff (hrun : Run sizeof ts L) :
    (∀ t ∈ ts, Accounts sizeof t) ↔ ∀ t ∈ ts, Pinned t :=
  ⟨pinned_of_accounts hrun, accounts_of_pinned hrun⟩

end Balance

/-- A handle is opened, and an array made. -/
theorem accounts_iff_openHandle :
    ∃ ts L, ts.length = 2 ∧ Run (fun _ => 16) ts L ∧
      ((∀ t ∈ ts, Accounts (fun _ => 16) t) ↔ ∀ t ∈ ts, Pinned t) := by
  have hrun := (Run.start.step Step.openHandle (by decide)).step
    (Step.track (o := .array {}) (by decide)) (by decide : totalSize (fun _ => 16) _ < 2 ^ 62)
  exact ⟨_, _, rfl, hrun, accounts_iff hrun⟩

/-- The sizes of the structs in the next run, on a 64-bit machine. -/
def structSize : ObjType → ℕ
  | .string => 24
  | .function => 56
  | .hash => 64
  | _ => 16

/-- A string of a megabyte is made, so that a collection is due; the function of an `eval` is
compiled, and has ended before the collection. -/
theorem exists_not_accounts {chars : Bytes} (hlen : chars.length = 2 ^ 20) :
    ∃ ts L, Run structSize ts L ∧ ∃ t ∈ ts, ¬Accounts structSize t := by
  obtain ⟨vm, r, hvm, -, c, hc, -, s, hs, -⟩ :=
    vmNew_wellFormed.interned.exists_internString (structSize .string) chars
  have hstep : Step structSize ⟨vmNew, [1, 0], 0⟩ (.intern chars) ⟨vm, [1, 0], 0⟩ := .intern hvm
  rcases internString_cases hvm with rfl | ⟨table, count, rfl⟩
  · -- the machine has no string before
    rcases List.mem_cons.1 hc with rfl | hc
    · cases hs
    · rw [List.mem_singleton.1 hc] at hs
      cases hs
  have hsize : totalSize structSize (Intern.newString 2 chars :: vmNew.objects) =
      24 + 2 ^ 20 + 1 + 128 := by
    rw [totalSize_cons, ← hlen]
    rfl
  have hstring := Run.start.step hstep (hsize.trans_lt (by decide))
  have heval := hstring.step Step.initCompiler (by
    show 56 + totalSize structSize (Intern.newString 2 chars :: vmNew.objects) < 2 ^ 62
    rw [hsize]
    decide)
  have hwf := (run_balanced heval).wf
  obtain ⟨swept, hswept, -, hobj, -⟩ := exists_collect structSize hwf
  have hdue : (0 : UInt64) + UInt64.ofNat (24 + chars.length + 1) > 1024 * 1024 := by
    rw [hlen]
    decide
  have hcollect := heval.step (Step.collect hdue hswept) (by
    refine Nat.lt_of_le_of_lt (hobj ▸ totalSize_filter_le _ _) ?_
    show 56 + totalSize structSize (Intern.newString 2 chars :: vmNew.objects) < 2 ^ 62
    rw [hsize]
    decide)
  refine ⟨_, _, hcollect, ?_⟩
  by_contra hno
  push Not at hno
  have hlive := pinned_of_accounts hcollect hno _ List.mem_cons_self rfl 3 List.mem_cons_self
  -- neither the table of the globals nor that of the natives leads to the function
  have hroots : (3 : Ref) ∈ {x : Ref | x = 0 ∨ x = 1} := by
    refine Graph.Reach.mem_of_closed hlive ?_ ?_
    · intro x hx
      change x ∈ [0, 1] at hx
      simpa using hx
    · rintro x (rfl | rfl) y hy <;> cases hy
  rcases hroots with h | h <;> cases h

theorem not_accounts_of_run :
    ¬∀ (ts : List Transition) (L : Ledger), Run structSize ts L →
      ∀ t ∈ ts, Accounts structSize t := by
  intro hall
  obtain ⟨ts, L, hrun, t, ht, hno⟩ :=
    exists_not_accounts (List.length_replicate (n := 2 ^ 20) (a := (0x78 : UInt8)))
  exact hno (hall ts L hrun t ht)

end Gc

end Slp
