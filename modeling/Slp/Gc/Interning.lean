import Slp.Gc.Accounting

/-!
# Every run interns

The machine creates strings, collects, and does other work between: it links objects that are no
strings, and rewrites those that are linked.  In every state it reaches the strings of the heap have
different bytes, the intern table has a free cell, and interning the bytes of a string gives that
string.  A new string is interned as long as there are fewer than `2 ^ 29` of them; at that number
the capacity of the table, an `int`, cannot be doubled once more (`interns_iff`).
-/

namespace Slp

namespace Intern

variable {h : Heap} {vm vm' : VM} {chars : Bytes} {r : Ref} {n : ℕ}

/-- The products by two of `slp_vm_intern_string` and `intern_grow` are in the range of `int`. -/
def countersFit (vm : VM) : Bool :=
  decide (vm.internedCount * 2 < 2 ^ 31) && match vm.interned with
    | none => true
    | some table => decide (vm.internedCount * 2 < table.length) || decide (table.length * 2 < 2 ^ 31)

/-- `slp_vm_intern_string` with its counters of type `int`; `none` also when one of them
overflows. -/
def internStringInt (sizeofString : ℕ) (vm : VM) (chars : Bytes) : Option (VM × Ref) :=
  match probe vm chars with
  | some r => some (vm, r)
  | none => if countersFit vm then internString sizeofString vm chars else none

/-- Where there is an overflow there is no string with the bytes. -/
theorem internStringInt_eq (h : (probe vm chars).isSome ∨ countersFit vm = true) :
    internStringInt n vm chars = internString n vm chars := by
  cases hp : probe vm chars with
  | some r => simp only [internStringInt, internString, hp]
  | none =>
    rw [hp] at h
    simp only [internStringInt, hp, h.resolve_left Bool.false_ne_true, if_true]

theorem internStringInt_cases (h : internStringInt n vm chars = some (vm', r)) :
    (vm' = vm ∧ probe vm chars = some r) ∨
      countersFit vm = true ∧ internString n vm chars = some (vm', r) := by
  unfold internStringInt at h
  split at h
  · next hp =>
    cases h
    exact .inl ⟨rfl, hp⟩
  · split_ifs at h with hfit
    exact .inr ⟨hfit, h⟩

/-! ### The capacity -/

/-- `vm->interned_capacity`. -/
def capacity (vm : VM) : ℕ := (vm.interned.getD []).length

theorem length_insert {table table' : List (Option Ref)} {hash : UInt32}
    (h : insert table hash r = some table') : table'.length = table.length := by
  obtain ⟨i, -, h⟩ := Option.bind_eq_some_iff.1 h
  cases h
  exact List.length_set

theorem length_growInto {cells table table' : List (Option Ref)}
    (hg : growInto h table cells = some table') : table'.length = table.length := by
  induction cells generalizing table with
  | nil => cases hg; rfl
  | cons c cells ih =>
    cases c with
    | none => exact ih hg
    | some r =>
      obtain ⟨t, ht, hg⟩ := Option.bind_eq_some_iff.1 hg
      rw [ih hg, length_insert ht]

/-- The table grows only where its capacity can be doubled. -/
theorem makeRoom_length_lt {table : List (Option Ref)} (hroom : makeRoom vm = some table)
    (hfit : countersFit vm = true) (hcap : capacity vm < 2 ^ 31) : table.length < 2 ^ 31 := by
  unfold makeRoom at hroom
  unfold countersFit at hfit
  unfold capacity at hcap
  cases ht : vm.interned with
  | none =>
    rw [ht] at hroom
    cases hroom
    rw [List.length_replicate]
    decide
  | some old =>
    simp only [ht, Bool.and_eq_true, Bool.or_eq_true, decide_eq_true_eq] at hroom hfit hcap
    split_ifs at hroom with hfull
    · rw [length_growInto hroom, List.length_replicate]
      omega
    · cases hroom
      exact hcap

theorem capacity_internString_lt (h : internString n vm chars = some (vm', r))
    (hfit : countersFit vm = true) (hcap : capacity vm < 2 ^ 31) : capacity vm' < 2 ^ 31 := by
  unfold internString at h
  split at h
  · cases h
    exact hcap
  · obtain ⟨table, hroom, h⟩ := Option.bind_eq_some_iff.1 h
    obtain ⟨table', hinsert, h⟩ := Option.bind_eq_some_iff.1 h
    cases h
    show table'.length < 2 ^ 31
    rw [length_insert hinsert]
    exact makeRoom_length_lt hroom hfit hcap

/-- The counters are in range up to `2 ^ 29` strings. -/
theorem countersFit_iff (h : Interned vm) (hcap : capacity vm < 2 ^ 31) :
    countersFit vm = true ↔ vm.objects.strings.length < 2 ^ 29 := by
  have htab := h.table
  have hcount := h.count_eq
  unfold countersFit
  unfold capacity at hcap
  cases ht : vm.interned with
  | none =>
    simp only [ht] at htab
    rw [htab, List.length_nil] at hcount ⊢
    simp [hcount]
  | some table =>
    simp only [ht] at htab hcap
    obtain ⟨⟨⟨k, hlen⟩, -, -⟩, hload⟩ := htab
    have hpow : 2 ^ (k + 1) ≤ 2 ^ 30 := by
      have hk : k + 1 < 31 := (Nat.pow_lt_pow_iff_right (by decide)).1 (hlen ▸ hcap)
      exact Nat.pow_le_pow_right (by decide) (by omega)
    simp only [Bool.and_eq_true, Bool.or_eq_true, decide_eq_true_eq]
    omega

/-- A table with room has a free cell. -/
theorem Interned.none_mem (h : Interned vm) {table : List (Option Ref)}
    (ht : vm.interned = some table) : none ∈ table := by
  have htab := h.table
  simp only [ht] at htab
  obtain ⟨⟨⟨k, hlen⟩, hperm, -⟩, hload⟩ := htab
  have hpos : 0 < table.length := hlen ▸ Nat.two_pow_pos _
  have hlt : (Table.entries table).length < table.length := by
    rw [hperm.length_eq, ← h.count_eq]
    omega
  obtain ⟨i, -, hi⟩ := Table.exists_none_of_lt hlt
  exact List.mem_of_getElem? hi

end Intern

namespace Gc

variable {sizeof : ObjType → ℕ} {vm vm' : VM}

theorem length_foldlM_reinsert {h : Heap} {t t' : List (Option Ref) × ℕ}
    (hf : h.foldlM reinsert t = some t') : t'.1.length = t.1.length := by
  induction h generalizing t with
  | nil => cases hf; rfl
  | cons c h ih =>
    rw [List.foldlM_cons] at hf
    obtain ⟨u, hu, hf⟩ := Option.bind_eq_some_iff.1 hf
    rw [ih hf]
    unfold reinsert at hu
    split at hu
    · obtain ⟨i, -, hu⟩ := Option.bind_eq_some_iff.1 hu
      cases hu
      exact List.length_set
    · cases hu
      rfl

theorem capacity_rebuildInterned (h : rebuildInterned vm = some vm') :
    Intern.capacity vm' = Intern.capacity vm := by
  unfold rebuildInterned at h
  split at h
  · cases h
    rfl
  · next table ht =>
    split_ifs at h with hzero
    · cases h
      rfl
    · obtain ⟨filled, hfilled, h⟩ := Option.bind_eq_some_iff.1 h
      cases h
      have hlen := length_foldlM_reinsert hfilled
      rw [List.length_replicate] at hlen
      rw [Intern.capacity, Intern.capacity, ht]
      exact hlen

/-- A collection leaves the capacity of the table. -/
theorem capacity_collect (h : WellFormed vm) (hc : collect sizeof vm = some vm') :
    Intern.capacity vm' = Intern.capacity vm := by
  obtain ⟨rebuilt, hre, hc⟩ := Option.bind_eq_some_iff.1 hc
  cases hc
  have hrest := (traceReferences_markState (markRoots_markState h)).1.marking.rest
  refine (capacity_rebuildInterned hre).trans ?_
  rw [sweep, hrest]
  rfl

/-! ### Runs -/

/-- The states a machine reaches from `slp_vm_new`. -/
inductive Reachable (sizeof : ObjType → ℕ) : VM → Prop
  | start : Reachable sizeof vmNew
  | intern {vm vm' : VM} {chars : Bytes} {r : Ref} (hvm : Reachable sizeof vm)
    (hstep : Intern.internStringInt (sizeof .string) vm chars = some (vm', r)) : Reachable sizeof vm'
  | collect {vm vm' : VM} (hvm : Reachable sizeof vm) (hstep : Gc.collect sizeof vm = some vm') :
    Reachable sizeof vm'
  /-- An allocation with `track_object`. -/
  | track {vm : VM} {o : Obj} (hvm : Reachable sizeof vm) (ho : o.type ≠ .string) :
    Reachable sizeof (vm.alloc sizeof o).1
  /-- An object linked by hand. -/
  | link {vm : VM} {o : Obj} (hvm : Reachable sizeof vm) (ho : o.type ≠ .string) :
    Reachable sizeof (Gc.link vm o)
  /-- Any other work on the machine. -/
  | script {vm vm' : VM} (hvm : Reachable sizeof vm) (hstep : Works vm vm') : Reachable sizeof vm'

/-- What the interner relies on in every state. -/
structure Interning (vm : VM) : Prop where
  wf : WellFormed vm
  capacity_lt : Intern.capacity vm < 2 ^ 31

theorem Reachable.interning (h : Reachable sizeof vm) : Interning vm := by
  induction h with
  | start => exact ⟨vmNew_wellFormed, by decide⟩
  | intern _ hstep ih =>
    rcases Intern.internStringInt_cases hstep with ⟨rfl, -⟩ | ⟨hfit, hstep⟩
    · exact ih
    · exact ⟨ih.wf.intern hstep, Intern.capacity_internString_lt hstep hfit ih.capacity_lt⟩
  | collect _ hstep ih =>
    exact ⟨(collect_eq ih.wf hstep).1, (capacity_collect ih.wf hstep).symm ▸ ih.capacity_lt⟩
  | track _ ho ih => exact ⟨ih.wf.link ho rfl ⟨rfl, rfl, rfl⟩, ih.capacity_lt⟩
  | link _ ho ih => exact ⟨ih.wf.link ho rfl ⟨rfl, rfl, rfl⟩, ih.capacity_lt⟩
  | @script vm vm' _ hstep ih =>
    refine ⟨ih.wf.works hstep, ?_⟩
    rw [Intern.capacity, hstep.interned]
    exact ih.capacity_lt

/-- A string of the heap has these bytes. -/
def HasString (vm : VM) (chars : Bytes) : Prop :=
  ∃ c ∈ vm.objects, ∃ s, c.obj = .string s ∧ s.chars = chars

/-- The interner at work: the strings have different bytes, the table has a free cell, and interning
`chars` ends with a string of these bytes, the one of the heap if there is one; a collection ends. -/
structure Interns (sizeof : ObjType → ℕ) (vm : VM) (chars : Bytes) : Prop where
  unique : ∀ c ∈ vm.objects, ∀ c' ∈ vm.objects, ∀ s s', c.obj = .string s → c'.obj = .string s' →
    s.chars = s'.chars → c = c'
  free : ∀ table, vm.interned = some table → none ∈ table
  existing : ∀ c ∈ vm.objects, ∀ s, c.obj = .string s → s.chars = chars →
    Intern.internStringInt (sizeof .string) vm chars = some (vm, c.ref)
  interns : ∃ vm' r, Intern.internStringInt (sizeof .string) vm chars = some (vm', r) ∧
    ∃ c ∈ vm'.objects, c.ref = r ∧ ∃ s, c.obj = .string s ∧ s.chars = chars
  collects : ∃ vm', Gc.collect sizeof vm = some vm'

theorem Interning.existing (h : Interning vm) {n : ℕ} {c : HeapCell} (hc : c ∈ vm.objects)
    {s : StringObj} (hs : c.obj = .string s) :
    Intern.internStringInt n vm s.chars = some (vm, c.ref) := by
  simp only [Intern.internStringInt, h.wf.interned.probe_eq hc hs]

/-- A string is interned when it is there or there is room for it. -/
theorem Interning.interns_iff_countersFit (h : Interning vm) {chars : Bytes} :
    Interns sizeof vm chars ↔ HasString vm chars ∨ Intern.countersFit vm = true := by
  constructor
  · rintro ⟨-, -, -, ⟨vm', r, hin, -⟩, -⟩
    rcases Intern.internStringInt_cases hin with ⟨rfl, hprobe⟩ | ⟨hfit, -⟩
    · obtain ⟨c, hc, -, s, hs, hchars⟩ := h.wf.interned.probe_some hprobe
      exact .inl ⟨c, hc, s, hs, hchars⟩
    · exact .inr hfit
  · intro hcond
    obtain ⟨vm', hcollect, -⟩ := exists_collect sizeof h.wf
    refine ⟨h.wf.interned.chars_inj, fun table ht => h.wf.interned.none_mem ht, ?_, ?_,
      ⟨vm', hcollect⟩⟩
    · rintro c hc s hs rfl
      exact h.existing hc hs
    · rcases hcond with ⟨c, hc, s, hs, rfl⟩ | hfit
      · exact ⟨vm, c.ref, h.existing hc hs, c, hc, rfl, s, hs, rfl⟩
      · obtain ⟨vm', r, hin, -, hmem⟩ := h.wf.interned.exists_internString (sizeof .string) chars
        exact ⟨vm', r, (Intern.internStringInt_eq (.inr hfit)).trans hin, hmem⟩

/-- **In every state of a run the interner does its work** for the bytes of every string that is
there, and for other bytes just when there are fewer than `2 ^ 29` strings. -/
theorem interns_iff (h : Reachable sizeof vm) (chars : Bytes) :
    Interns sizeof vm chars ↔ HasString vm chars ∨ vm.objects.strings.length < 2 ^ 29 := by
  rw [h.interning.interns_iff_countersFit,
    Intern.countersFit_iff h.interning.wf.interned h.interning.capacity_lt]

/-- A new machine interns a text with a zero byte in it. -/
theorem interns_iff_vmNew :
    Reachable (fun _ => 16) vmNew ∧
      (Interns (fun _ => 16) vmNew [97, 0, 98] ↔
        HasString vmNew [97, 0, 98] ∨ vmNew.objects.strings.length < 2 ^ 29) :=
  ⟨.start, interns_iff .start _⟩

/-! ### As many strings as there can be -/

/-- The four bytes of a number. -/
def word (n : ℕ) : Bytes :=
  [UInt8.ofNat (n / 2 ^ 24), UInt8.ofNat (n / 2 ^ 16), UInt8.ofNat (n / 2 ^ 8), UInt8.ofNat n]

theorem word_inj {m n : ℕ} (hm : m < 2 ^ 32) (hn : n < 2 ^ 32) (h : word m = word n) : m = n := by
  simp only [word, List.cons.injEq, ← UInt8.toNat_inj, UInt8.toNat_ofNat', and_true] at h
  omega

/-- A run that creates the words of the first `n` numbers. -/
theorem exists_words (sizeof : ObjType → ℕ) {n : ℕ} (hn : n ≤ 2 ^ 29) :
    ∃ vm, Reachable sizeof vm ∧ vm.objects.strings.length = n ∧
      ∀ chars, HasString vm chars → ∃ i < n, chars = word i := by
  induction n with
  | zero =>
    refine ⟨vmNew, .start, rfl, ?_⟩
    rintro chars ⟨c, hc, s, hs, -⟩
    have hnil : vmNew.objects.strings = [] := rfl
    have hmem : c.ref ∈ vmNew.objects.strings := Intern.mem_strings.2 ⟨c, hc, rfl, s, hs⟩
    rw [hnil] at hmem
    cases hmem
  | succ n ih =>
    obtain ⟨vm, hvm, hlen, hwords⟩ := ih (by omega)
    have hnew : ¬ HasString vm (word n) := by
      intro hs
      obtain ⟨i, hi, heq⟩ := hwords _ hs
      have hni : n = i := word_inj (by omega) (by omega) heq
      omega
    have hfit : Intern.countersFit vm = true :=
      (Intern.countersFit_iff hvm.interning.wf.interned hvm.interning.capacity_lt).2 (by omega)
    obtain ⟨vm', r, hin, hinterned, c, hc, -, s, hs, hchars⟩ :=
      hvm.interning.wf.interned.exists_internString (sizeof .string) (word n)
    have hint := (Intern.internStringInt_eq (.inr hfit)).trans hin
    refine ⟨vm', .intern hvm hint, ?_, ?_⟩
    all_goals rcases internString_cases hin with rfl | ⟨table, count, rfl⟩
    · exact absurd ⟨c, hc, s, hs, hchars⟩ hnew
    · show (Heap.strings (Intern.newString _ _ :: vm.objects)).length = n + 1
      rw [strings_cons]
      simp only [Intern.newString, List.length_cons, hlen]
    · exact absurd ⟨c, hc, s, hs, hchars⟩ hnew
    · rintro chars ⟨d, hd, t, ht, rfl⟩
      rcases List.mem_cons.1 hd with rfl | hd
      · cases ht
        exact ⟨n, by omega, rfl⟩
      · obtain ⟨i, hi, heq⟩ := hwords _ ⟨d, hd, t, ht, rfl⟩
        exact ⟨i, by omega, heq⟩

/-- With `2 ^ 29` strings on the heap the next one cannot be interned. -/
theorem not_interns : ∃ vm, Reachable (fun _ => 16) vm ∧ vm.objects.strings.length = 2 ^ 29 ∧
    ¬ Interns (fun _ => 16) vm (word (2 ^ 29)) := by
  obtain ⟨vm, hvm, hlen, hwords⟩ := exists_words (fun _ => 16) (Nat.le_refl (2 ^ 29))
  refine ⟨vm, hvm, hlen, fun hin => ?_⟩
  rw [hvm.interning.interns_iff_countersFit, Intern.countersFit_iff hvm.interning.wf.interned
    hvm.interning.capacity_lt, hlen] at hin
  rcases hin with hs | hlt
  · obtain ⟨i, hi, heq⟩ := hwords _ hs
    have hni : 2 ^ 29 = i := word_inj (by decide) (by omega) heq
    omega
  · omega

end Gc

end Slp
