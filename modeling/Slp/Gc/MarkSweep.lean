import Slp.Gc.Collect
import Slp.Graph.Marking

/-!
# The collector is correct

A collection ends, leaves exactly the objects reachable from the roots, in the order they were
in, with their marks clear, and an intern table that holds exactly the surviving strings
(`collect_correct`).

Marking changes nothing but marks and the gray stack (`Marking`); the reachability argument is
the tricolour invariant of `Slp.Graph.Marking` on the marked addresses, kept by every step of
`traceReferences` (`traceReferences_tricolor`).
-/

namespace Slp

namespace Gc

open Graph

/-- The edges of the heap graph. -/
def edges (h : Heap) (r : Ref) : List Ref :=
  match h.get? r with
  | some o => o.references h
  | none => []

/-- The object at `r` is reachable from the roots. -/
def Live (vm : VM) (r : Ref) : Prop := Reach (edges vm.objects) {x | x ∈ vm.rootReferences} r

/-- What holds of the machine between collections, as far as the collector relies on it. -/
structure WellFormed (vm : VM) : Prop where
  interned : Intern.Interned vm
  unmarked : ∀ c ∈ vm.objects, c.isMarked = false
  gray : vm.gray = []

/-! ### Marks -/

section Marks

variable {h : Heap} {r x : Ref}

theorem isMarked_cons (c : HeapCell) (h : Heap) (r : Ref) :
    isMarked (c :: h) r = if c.ref = r then some c.isMarked else isMarked h r := by
  unfold isMarked
  by_cases hc : c.ref = r <;> simp [hc]

theorem isMarked_of_mem {c : HeapCell} (hn : (h.map (·.ref)).Nodup) (hc : c ∈ h) :
    isMarked h c.ref = some c.isMarked := by
  induction h with
  | nil => cases hc
  | cons d h ih =>
    rw [List.map_cons, List.nodup_cons] at hn
    rw [isMarked_cons]
    rcases List.mem_cons.1 hc with rfl | hc
    · rw [if_pos rfl]
    · have hne : d.ref ≠ c.ref := fun heq => hn.1 (heq ▸ List.mem_map_of_mem hc)
      rw [if_neg hne]
      exact ih hn.2 hc

theorem isMarked_eq_none : isMarked h r = none ↔ h.get? r = none := by
  simp only [isMarked, Heap.get?, Option.map_eq_none_iff]

theorem isMarked_setMark (h : Heap) (r x : Ref) :
    isMarked (setMark h r) x = if x = r then (isMarked h x).map fun _ => true else isMarked h x := by
  induction h with
  | nil => simp [isMarked, setMark]
  | cons c h ih =>
    have hcons : setMark (c :: h) r =
        (if c.ref = r then { c with isMarked := true } else c) :: setMark h r := by
      simp [setMark]
    rw [hcons, isMarked_cons, isMarked_cons, ih]
    by_cases hc : c.ref = r <;> by_cases hx : x = r <;> by_cases hcx : c.ref = x <;> simp_all

/-- A cell with its mark clear. -/
def unmark (c : HeapCell) : HeapCell := { c with isMarked := false }

theorem map_unmark_setMark (h : Heap) (r : Ref) : (setMark h r).map unmark = h.map unmark := by
  rw [setMark, List.map_map]
  refine List.map_congr_left fun c _ => ?_
  by_cases hc : c.ref = r <;> simp [unmark, hc]

theorem get?_map_unmark (h : Heap) (r : Ref) : Heap.get? (h.map unmark) r = h.get? r := by
  induction h with
  | nil => rfl
  | cons c h ih => rw [List.map_cons, Heap.get?_cons, Heap.get?_cons, ih]; rfl

end Marks

/-! ### The marking phase -/

/-- `vm'` differs from `vm` in marks and in the gray stack only. -/
structure Marking (vm vm' : VM) : Prop where
  rest : vm' = { vm with objects := vm'.objects, gray := vm'.gray }
  objects : vm'.objects.map unmark = vm.objects.map unmark

namespace Marking

variable {vm vm' vm'' : VM}

theorem refl (vm : VM) : Marking vm vm := ⟨rfl, rfl⟩

theorem trans (h : Marking vm vm') (h' : Marking vm' vm'') : Marking vm vm'' := by
  refine ⟨?_, h'.objects.trans h.objects⟩
  rw [h'.rest, h.rest]

theorem get?_eq (h : Marking vm vm') (r : Ref) : vm'.objects.get? r = vm.objects.get? r := by
  rw [← get?_map_unmark, h.objects, get?_map_unmark]

end Marking

/-- The addresses of marked objects. -/
def Marked (vm : VM) (r : Ref) : Prop := isMarked vm.objects r = some true

/-- What marking one object does to the marks and the gray stack. -/
theorem markObj_spec (vm : VM) (r : Ref) :
    Marking vm (markObj vm r) ∧
      (∀ x, Marked (markObj vm r) x ↔ Marked vm x ∨ (x = r ∧ (vm.objects.get? x).isSome)) ∧
      ∀ x, x ∈ (markObj vm r).gray ↔
        x ∈ vm.gray ∨ (¬ Marked vm x ∧ x = r ∧ (vm.objects.get? x).isSome) := by
  have hsome : ∀ x, (vm.objects.get? x).isSome ↔ ∃ b, isMarked vm.objects x = some b := by
    intro x
    rw [← Option.isSome_iff_exists, ← Option.ne_none_iff_isSome, ← Option.ne_none_iff_isSome, Ne, Ne,
      isMarked_eq_none]
  unfold markObj Marked
  split
  · rename_i hr
    refine ⟨⟨rfl, map_unmark_setMark _ _⟩, fun x => ?_, fun x => ?_⟩
    · simp only [isMarked_setMark, hsome]
      by_cases hx : x = r
      · subst hx; simp [hr]
      · simp [hx]
    · simp only [List.mem_cons, hsome]
      by_cases hx : x = r
      · subst hx; simp [hr]
      · simp [hx]
  · rename_i hr
    refine ⟨.refl vm, fun x => ?_, fun x => ?_⟩ <;> rw [hsome]
    · refine ⟨.inl, ?_⟩
      rintro (hx | ⟨rfl, b, hb⟩)
      · exact hx
      · cases b with
        | true => exact hb
        | false => exact absurd hb (hr ·)
    · refine ⟨.inl, ?_⟩
      rintro (hx | ⟨hm, rfl, b, hb⟩)
      · exact hx
      · cases b with
        | true => exact absurd hb hm
        | false => exact absurd hb (hr ·)

theorem foldl_markObj_spec (rs : List Ref) (vm : VM) :
    Marking vm (rs.foldl markObj vm) ∧
      (∀ x, Marked (rs.foldl markObj vm) x ↔
        Marked vm x ∨ (x ∈ rs ∧ (vm.objects.get? x).isSome)) ∧
      ∀ x, x ∈ (rs.foldl markObj vm).gray ↔
        x ∈ vm.gray ∨ (¬ Marked vm x ∧ x ∈ rs ∧ (vm.objects.get? x).isSome) := by
  induction rs generalizing vm with
  | nil => simp [Marking.refl]
  | cons r rs ih =>
    obtain ⟨hm, hmark, hgray⟩ := markObj_spec vm r
    obtain ⟨hm', hmark', hgray'⟩ := ih (markObj vm r)
    refine ⟨hm.trans hm', fun x => ?_, fun x => ?_⟩
    · rw [List.foldl_cons, hmark', hmark, hm.get?_eq, List.mem_cons]
      tauto
    · rw [List.foldl_cons, hgray', hmark, hgray, hm.get?_eq, List.mem_cons]
      tauto

theorem references_congr {h h' : Heap} (hh : ∀ r, h'.get? r = h.get? r) (o : Obj) :
    o.references h' = o.references h := by
  have hup : ∀ r, h'.upvalueCount r = h.upvalueCount r := fun r => by
    rw [Heap.upvalueCount, Heap.upvalueCount, hh]
  cases o <;> simp only [Obj.references, hup]

theorem edges_congr {h h' : Heap} (hh : ∀ r, h'.get? r = h.get? r) : edges h' = edges h := by
  funext r
  simp only [edges, hh, references_congr hh]

/-- The marked addresses, together with the reachable addresses at which no object is linked:
those are never marked, and have no edges. -/
def Colored (vm₀ vm : VM) : Set Ref :=
  {x | Marked vm x ∨ (Live vm₀ x ∧ (vm₀.objects.get? x).isNone)}

/-- The state of the marker, started on `vm₀`. -/
structure MarkState (vm₀ vm : VM) : Prop where
  marking : Marking vm₀ vm
  tricolor : Tricolor (edges vm₀.objects) {x | x ∈ vm₀.rootReferences} (Colored vm₀ vm) vm.gray

theorem isSome_or_isNone (vm : VM) (x : Ref) :
    (vm.objects.get? x).isSome ∨ (vm.objects.get? x).isNone := by
  cases vm.objects.get? x <;> simp

theorem markRoots_markState {vm₀ : VM} (h : WellFormed vm₀) : MarkState vm₀ (markRoots vm₀) := by
  have hnone : ∀ x, ¬ Marked vm₀ x := by
    intro x hx
    obtain ⟨c, hc, hcm⟩ := Option.map_eq_some_iff.1 hx
    rw [h.unmarked c (List.mem_of_find?_eq_some hc)] at hcm
    cases hcm
  obtain ⟨hm, hmark, hgray⟩ := foldl_markObj_spec vm₀.rootReferences vm₀
  simp only [h.gray, List.not_mem_nil, hnone, false_or, not_false_eq_true, true_and]
    at hmark hgray
  refine ⟨hm, fun x hx => ?_, ?_, fun x hx => ?_, ?_⟩
  · rcases isSome_or_isNone vm₀ x with hs | hs
    · exact .inl ((hmark x).2 ⟨hx, hs⟩)
    · exact .inr ⟨.root hx, hs⟩
  · rintro x (hx | hx)
    · exact .root ((hmark x).1 hx).1
    · exact hx.1
  · exact .inl ((hmark x).2 ((hgray x).1 hx))
  · rintro x (hx | ⟨-, hx⟩) hg y hy
    · exact absurd ((hgray x).2 ((hmark x).1 hx)) hg
    · rw [edges, Option.isNone_iff_eq_none.1 hx] at hy
      cases hy

/-- Blackening the top of the gray stack keeps the invariant. -/
theorem MarkState.blackenObject {vm₀ vm : VM} {r : Ref} {gray : List Ref} (h : MarkState vm₀ vm)
    (hg : vm.gray = r :: gray) : MarkState vm₀ (blackenObject { vm with gray } r) := by
  set vm₁ : VM := { vm with gray } with hvm₁
  have hm₁ : Marking vm₀ vm₁ := ⟨by rw [hvm₁, h.marking.rest], h.marking.objects⟩
  have hedges : Gc.blackenObject vm₁ r = (edges vm₀.objects r).foldl markObj vm₁ := by
    rw [← edges_congr hm₁.get?_eq]
    unfold Gc.blackenObject edges
    cases vm₁.objects.get? r <;> rfl
  obtain ⟨hm, hmark, hgray⟩ := foldl_markObj_spec (edges vm₀.objects r) vm₁
  rw [← hedges] at hm hmark hgray
  have hsame : ∀ x, Marked vm₁ x ↔ Marked vm x := fun x => Iff.rfl
  have hcol : r ∈ Colored vm₀ vm :=
    h.tricolor.gray_mem r (by rw [hg]; exact List.mem_cons_self)
  refine ⟨hm₁.trans hm, (hg ▸ h.tricolor).step (x := r) (fun y => ?_) fun y => ?_⟩
  · change (Marked _ y ∨ _) ↔ (Marked vm y ∨ _) ∨ _
    rw [hmark, hsame, hm₁.get?_eq]
    constructor
    · rintro ((hy | ⟨hy, -⟩) | hy)
      · exact .inl (.inl hy)
      · exact .inr hy
      · exact .inl (.inr hy)
    · rintro ((hy | hy) | hy)
      · exact .inl (.inl hy)
      · exact .inr hy
      · rcases isSome_or_isNone vm₀ y with hs | hs
        · exact .inl (.inr ⟨hy, hs⟩)
        · exact .inr ⟨(h.tricolor.sound r hcol).step hy, hs⟩
  · rw [hgray, hsame, hm₁.get?_eq]
    refine or_congr Iff.rfl ?_
    change _ ↔ ¬ (Marked vm y ∨ _) ∧ _
    constructor
    · rintro ⟨hn, hy, hs⟩
      refine ⟨?_, hy⟩
      rintro (hy | ⟨-, hy⟩)
      · exact hn hy
      · rw [Option.isNone_iff_eq_none.1 hy] at hs
        cases hs
    · rintro ⟨hn, hy⟩
      refine ⟨fun hm => hn (.inl hm), hy, ?_⟩
      rcases isSome_or_isNone vm₀ y with hs | hs
      · exact hs
      · exact absurd (.inr ⟨(h.tricolor.sound r hcol).step hy, hs⟩) hn

/-- The tracing loop keeps the invariant and ends with an empty gray stack. -/
theorem traceReferences_markState {vm₀ vm : VM} (h : MarkState vm₀ vm) :
    MarkState vm₀ (traceReferences vm) ∧ (traceReferences vm).gray = [] := by
  induction vm using traceReferences.induct with
  | case1 vm hg =>
    rw [traceReferences]
    split
    · exact ⟨h, hg⟩
    · rename_i hg'
      rw [hg] at hg'
      cases hg'
  | case2 vm r gray hg ih =>
    rw [traceReferences]
    split
    · rename_i hg'
      rw [hg] at hg'
      cases hg'
    · rename_i r' gray' hg'
      obtain ⟨rfl, rfl⟩ : r = r' ∧ gray = gray' := by simpa [hg] using hg'
      exact ih (h.blackenObject hg)

/-- After tracing, exactly the live objects are marked. -/
theorem isMarked_iff_live {vm₀ vm : VM} (h : MarkState vm₀ vm) (hg : vm.gray = []) {r : Ref}
    (hr : (vm₀.objects.get? r).isSome) : Marked vm r ↔ Live vm₀ r := by
  have key := (hg ▸ h.tricolor).mem_iff_of_nil (x := r)
  refine ⟨fun hm => key.1 (.inl hm), fun hl => ?_⟩
  rcases key.2 hl with hm | ⟨-, hn⟩
  · exact hm
  · rw [Option.isNone_iff_eq_none.1 hn] at hr
    cases hr

/-! ### The sweeping phase -/

theorem sweepObjects_fst (sizeof : ObjType → ℕ) (h : Heap) (bytes : UInt64) :
    (sweepObjects sizeof h bytes).1 = (h.filter (·.isMarked)).map unmark := by
  induction h generalizing bytes with
  | nil => rfl
  | cons c h ih =>
    rw [sweepObjects]
    by_cases hc : c.isMarked
    · simp [hc, ih, unmark]
    · simp [hc, ih]

/-- Tracing changed nothing but marks. -/
theorem MarkState.map_unmark {vm₀ vm : VM} (h₀ : WellFormed vm₀) (h : MarkState vm₀ vm) :
    vm.objects.map unmark = vm₀.objects := by
  refine h.marking.objects.trans ?_
  conv_rhs => rw [← List.map_id vm₀.objects]
  refine List.map_congr_left fun c hc => ?_
  have := h₀.unmarked c hc
  cases c
  simp_all [unmark]

/-- After tracing exactly the live objects have their mark. -/
theorem MarkState.isMarked_iff {vm₀ vm : VM} (h₀ : WellFormed vm₀) (h : MarkState vm₀ vm)
    (hg : vm.gray = []) {c : HeapCell} (hc : c ∈ vm.objects) :
    c.isMarked = true ↔ Live vm₀ c.ref := by
  have hrefs : vm.objects.map (·.ref) = vm₀.objects.map (·.ref) := by
    rw [← h.map_unmark h₀, List.map_map]; rfl
  have hn : (vm.objects.map (·.ref)).Nodup := hrefs ▸ h₀.interned.nodup
  have hsome : (vm₀.objects.get? c.ref).isSome := by
    rw [← h.marking.get?_eq, Heap.get?_of_mem hn hc]; rfl
  have hiff := isMarked_iff_live h hg hsome
  rwa [Marked, isMarked_of_mem hn hc, Option.some.injEq] at hiff

open Classical in
/-- The sweep leaves the live objects, in their order and with clear marks. -/
theorem sweep_objects {vm₀ vm : VM} (sizeof : ObjType → ℕ) (h₀ : WellFormed vm₀)
    (h : MarkState vm₀ vm) (hg : vm.gray = []) :
    (sweep sizeof vm).objects = vm₀.objects.filter fun c => Live vm₀ c.ref := by
  have hfilter : vm.objects.filter (·.isMarked) =
      vm.objects.filter ((fun c => decide (Live vm₀ c.ref)) ∘ unmark) := by
    refine List.filter_congr fun c hc => ?_
    change c.isMarked = decide (Live vm₀ c.ref)
    rw [Bool.eq_iff_iff, decide_eq_true_iff]
    exact h.isMarked_iff h₀ hg hc
  change (sweepObjects sizeof vm.objects vm.bytesAllocated).1 = _
  rw [sweepObjects_fst, hfilter, ← List.filter_map, h.map_unmark h₀]

/-! ### The intern table -/

theorem strings_cons (c : HeapCell) (h : Heap) :
    Heap.strings (c :: h) = match c.obj with
      | .string _ => c.ref :: Heap.strings h
      | _ => Heap.strings h := by
  rw [Heap.strings, List.filterMap_cons, ← Heap.strings]
  cases c.obj <;> rfl

theorem length_strings_filter_le (h : Heap) (p : HeapCell → Bool) :
    (Heap.strings (h.filter p)).length ≤ h.strings.length :=
  (List.Sublist.filterMap _ List.filter_sublist).length_le

theorem reinsert_string {t : List (Option Ref)} {n k : ℕ} {c : HeapCell} {s : StringObj} {h : Heap}
    (hlen : t.length = 2 ^ k) (hs : c.obj = .string s) (hhash : Intern.hashAt h c.ref = s.hash) :
    reinsert (t, n) c =
      (Table.place (Intern.home h t.length) t c.ref).map fun t' => (t', n + 1) := by
  rw [← Intern.insert_eq hlen, hhash, Intern.insert]
  simp only [reinsert, hs]
  cases Intern.probeFree t t.length (s.hash.toNat &&& (t.length - 1)) <;> rfl

/-- The loop of `rebuild_interned` places the strings of the heap one after the other. -/
theorem foldlM_reinsert {h₀ : Heap} {k : ℕ} (h : Heap)
    (hhash : ∀ c ∈ h, ∀ s, c.obj = .string s → Intern.hashAt h₀ c.ref = s.hash)
    {t : List (Option Ref)} (hlen : t.length = 2 ^ k) (n : ℕ) :
    h.foldlM reinsert (t, n) =
      ((Heap.strings h).foldlM (Table.place (Intern.home h₀ (2 ^ k))) t).map
        fun t' => (t', n + (Heap.strings h).length) := by
  induction h generalizing t n with
  | nil => rfl
  | cons c h ih =>
    have ih' := fun {t} hlen n => ih (fun d hd => hhash d (List.mem_cons_of_mem _ hd)) (t := t) hlen n
    rw [List.foldlM_cons, strings_cons]
    cases hs : c.obj
    case string s =>
      rw [reinsert_string hlen hs (hhash c List.mem_cons_self s hs), List.foldlM_cons, hlen]
      cases hp : Table.place (Intern.home h₀ (2 ^ k)) t c.ref with
      | none => rfl
      | some t' =>
        have ht' : t'.length = 2 ^ k := by
          obtain ⟨i, -, rfl⟩ := Option.map_eq_some_iff.1 hp
          rw [List.length_set, hlen]
        change h.foldlM reinsert (t', n + 1) = Option.map _ (List.foldlM _ t' (Heap.strings h))
        rw [ih' ht', List.length_cons]
        congr 1
        funext t''
        rw [Nat.add_assoc, Nat.add_comm 1]
    all_goals
      simp only [reinsert, hs]
      exact ih' hlen n

/-- The rebuilt table is the intern table of the objects linked. -/
theorem exists_rebuildInterned (vm : VM) (hn : (vm.objects.map (·.ref)).Nodup)
    (hhash : ∀ c ∈ vm.objects, ∀ s, c.obj = .string s → s.hash = hashString s.chars)
    (hinj : ∀ c ∈ vm.objects, ∀ c' ∈ vm.objects, ∀ s s', c.obj = .string s →
      c'.obj = .string s' → s.chars = s'.chars → c = c')
    (htab : match vm.interned with
      | none => vm.internedCount = 0 ∧ vm.objects.strings = []
      | some table => (∃ k, table.length = 2 ^ (k + 1)) ∧
        2 * vm.objects.strings.length ≤ table.length) :
    ∃ table n, rebuildInterned vm = some { vm with interned := table, internedCount := n } ∧
      Intern.Interned { vm with interned := table, internedCount := n } := by
  cases ht : vm.interned with
  | none =>
    simp only [ht] at htab
    refine ⟨none, 0, ?_, hn, hhash, hinj, ?_, htab.2⟩
    · have hvm : { vm with interned := none, internedCount := 0 } = vm := by rw [← htab.1, ← ht]
      rw [hvm]
      simp only [rebuildInterned, ht]
    · rw [htab.2]; rfl
  | some table =>
    simp only [ht] at htab
    obtain ⟨⟨k, hlen⟩, hload⟩ := htab
    have hpos : 0 < table.length := hlen ▸ Nat.two_pow_pos _
    have hrep : (List.replicate table.length (none : Option Ref)).length = 2 ^ (k + 1) := by
      rw [List.length_replicate, hlen]
    obtain ⟨t, hf, htl, htp, htc⟩ := Table.exists_foldlM_place
      (Intern.home vm.objects (2 ^ (k + 1))) vm.objects.strings
      (t := List.replicate table.length none)
      (fun r _ => hrep.symm ▸ Nat.mod_lt _ (Nat.two_pow_pos _)) (Table.chained_replicate_none _ _)
      (by rw [Table.entries_replicate_none, List.length_nil, List.length_replicate]; omega)
    have hat : ∀ c ∈ vm.objects, ∀ s, c.obj = .string s →
        Intern.hashAt vm.objects c.ref = s.hash := fun c hc s hs => by
      simp only [Intern.hashAt, Intern.string?_of_mem hn hc hs]
    refine ⟨some t, vm.objects.strings.length, ?_, hn, hhash, hinj, rfl, ?_, ?_⟩
    · simp only [rebuildInterned, ht, if_neg hpos.ne', foldlM_reinsert _ hat hrep, hf,
        Option.map_some, Nat.zero_add]
      rfl
    · rw [Table.entries_replicate_none, List.append_nil] at htp
      rw [hrep] at htl
      exact ⟨⟨k, htl⟩, htp, htl.symm ▸ htc⟩
    · rw [htl, List.length_replicate]
      exact hload

/-! ### The collection -/

open Classical in
/-- A collection ends, leaves the live objects in their order, keeps the roots, and its result is
well formed. -/
theorem exists_collect (sizeof : ObjType → ℕ) {vm : VM} (h : WellFormed vm) :
    ∃ vm', collect sizeof vm = some vm' ∧ WellFormed vm' ∧
      vm'.objects = vm.objects.filter (fun c => Live vm c.ref) ∧
      vm'.rootReferences = vm.rootReferences := by
  obtain ⟨htrace, hgray⟩ := traceReferences_markState (markRoots_markState h)
  set traced := traceReferences (markRoots vm) with htraced
  have hobj := sweep_objects sizeof h htrace hgray
  set swept := sweep sizeof traced with hswept
  have hmem : ∀ c ∈ swept.objects, c ∈ vm.objects := by
    rw [hobj]
    exact fun c hc => (List.mem_filter.1 hc).1
  have hrest : traced = { vm with objects := traced.objects, gray := traced.gray } :=
    htrace.marking.rest
  have hint : swept.interned = vm.interned := by rw [hswept, sweep, hrest]
  have hcount : swept.internedCount = vm.internedCount := by rw [hswept, sweep, hrest]
  have hsub : swept.objects.strings.length ≤ vm.objects.strings.length :=
    hobj ▸ length_strings_filter_le _ _
  have h₁ := h.interned
  obtain ⟨table, n, hre, hinv⟩ := exists_rebuildInterned swept
    (hobj ▸ (List.filter_sublist.map _).nodup h₁.nodup)
    (fun c hc => h₁.hash_eq c (hmem c hc))
    (fun c hc c' hc' => h₁.chars_inj c (hmem c hc) c' (hmem c' hc')) (by
      have htab := h₁.table
      rw [hint, hcount]
      cases ht : vm.interned with
      | none =>
        simp only [ht] at htab ⊢
        have hzero : vm.objects.strings.length = 0 := by rw [htab]; rfl
        exact ⟨h₁.count_eq.trans hzero, List.length_eq_zero_iff.1 (by omega)⟩
      | some table =>
        simp only [ht] at htab ⊢
        refine ⟨htab.1.length_eq, ?_⟩
        have := h₁.count_eq
        omega)
  have hg' : swept.gray = [] := by rw [hswept, sweep]; exact hgray
  refine ⟨{ swept with
      interned := table
      internedCount := n
      nextGcThreshold := nextThreshold swept.bytesAllocated },
    by simp only [collect, ← htraced, ← hswept, hre]; rfl, ⟨?_, fun c hc => ?_, hg'⟩, hobj, ?_⟩
  · exact ⟨hinv.nodup, hinv.hash_eq, hinv.chars_inj, hinv.count_eq, hinv.table⟩
  · exact h.unmarked c (hmem c hc)
  · rw [hswept, sweep, hrest]; rfl

open Classical in
/-- Mark and sweep: a collection ends; the objects left are exactly the live ones, in their
previous order and with clear marks; the gray stack is empty; and the intern table holds exactly
the surviving strings, each found again by the probe for its bytes. -/
theorem collect_correct (sizeof : ObjType → ℕ) (vm : VM) (h : WellFormed vm) :
    ∃ vm', collect sizeof vm = some vm' ∧
      vm'.objects = vm.objects.filter (fun c => Live vm c.ref) ∧
      (∀ c ∈ vm'.objects, c.isMarked = false) ∧
      vm'.gray = [] ∧
      (Table.entries (vm'.interned.getD [])).Perm vm'.objects.strings ∧
      ∀ c ∈ vm'.objects, ∀ s, c.obj = .string s → Intern.probe vm' s.chars = some c.ref := by
  obtain ⟨vm', hc, hwf, hobj, -⟩ := exists_collect sizeof h
  refine ⟨vm', hc, hobj, hwf.unmarked, hwf.gray, ?_, fun c hc s hs => hwf.interned.probe_eq hc hs⟩
  have htab := hwf.interned.table
  cases ht : vm'.interned with
  | none =>
    simp only [ht] at htab
    rw [htab]
    exact .refl _
  | some table =>
    simp only [ht] at htab
    exact htab.1.entries_perm

/-- A live pair and a cell that point to each other, the string the pair is keyed by, and a string
that nothing refers to. -/
def cyclicVM : VM where
  stack := [.obj 1]
  objects := [⟨3, false, .string ⟨[98], 100⟩⟩, ⟨2, false, .keyValue (.obj 0) (.obj 1)⟩,
    ⟨1, false, .scalarCell (.obj 2) none⟩, ⟨0, false, .string ⟨[97], 103⟩⟩]
  interned := some [none, none, none, none, some 3, none, none, some 0]
  internedCount := 2

theorem cyclicVM_wellFormed : WellFormed cyclicVM := by
  refine ⟨⟨by decide, ?_, ?_, rfl, ⟨⟨2, rfl⟩, ?_, ?_⟩, by decide⟩, by decide, rfl⟩
  · simp only [cyclicVM, List.forall_mem_cons]
    refine ⟨?_, ?_, ?_, ?_, by simp⟩ <;> rintro s ⟨⟩ <;> decide
  · simp only [cyclicVM, List.forall_mem_cons]
    simp
  · exact List.Perm.refl _
  · intro x hx
    refine ⟨0, by decide, ?_, by simp⟩
    rcases List.mem_cons.1 hx with rfl | hx
    · rfl
    · rcases List.mem_cons.1 hx with rfl | hx
      · rfl
      · cases hx

open Classical in
theorem collect_cyclicVM :
    ∃ vm', collect (fun _ => 16) cyclicVM = some vm' ∧
      vm'.objects = cyclicVM.objects.filter (fun c => Live cyclicVM c.ref) ∧
      (∀ c ∈ vm'.objects, c.isMarked = false) ∧
      vm'.gray = [] ∧
      (Table.entries (vm'.interned.getD [])).Perm vm'.objects.strings ∧
      ∀ c ∈ vm'.objects, ∀ s, c.obj = .string s → Intern.probe vm' s.chars = some c.ref :=
  collect_correct _ _ cyclicVM_wellFormed

/-! ### Collecting again -/

theorem get?_filter {h : Heap} {p : HeapCell → Bool} {r : Ref}
    (hp : ∀ c ∈ h, c.ref = r → p c = true) : Heap.get? (h.filter p) r = h.get? r := by
  induction h with
  | nil => rfl
  | cons c h ih =>
    have ih' := ih fun d hd => hp d (List.mem_cons_of_mem _ hd)
    rw [Heap.get?_cons]
    by_cases hc : c.ref = r
    · rw [List.filter_cons_of_pos (hp c List.mem_cons_self hc), Heap.get?_cons, if_pos hc, if_pos hc]
    · rw [if_neg hc]
      by_cases hpc : p c = true
      · rw [List.filter_cons_of_pos hpc, Heap.get?_cons, if_neg hc, ih']
      · rw [List.filter_cons_of_neg hpc, ih']

open Classical in
/-- The collection does not change what is live. -/
theorem live_collect {vm vm' : VM} (hobj : vm'.objects = vm.objects.filter fun c => Live vm c.ref)
    (hroots : vm'.rootReferences = vm.rootReferences) (r : Ref) : Live vm' r ↔ Live vm r := by
  have hget : ∀ x, Live vm x → vm'.objects.get? x = vm.objects.get? x := by
    intro x hx
    rw [hobj]
    refine get?_filter fun c _ hc => ?_
    simpa [hc] using hx
  unfold Live
  rw [hroots]
  refine Reach.congr fun a ha => ?_
  have hsucc : ∀ y ∈ edges vm.objects a, vm'.objects.get? y = vm.objects.get? y :=
    fun y hy => hget y (Reach.step ha hy)
  unfold edges at hsucc ⊢
  rw [hget a ha]
  cases ho : vm.objects.get? a with
  | none => rfl
  | some o =>
    simp only [ho] at hsucc ⊢
    -- only the edges of a closure look at the heap, at its function
    cases o
    case closure c =>
      have hup : vm'.objects.upvalueCount c.function = vm.objects.upvalueCount c.function := by
        rw [Heap.upvalueCount, Heap.upvalueCount, hsucc c.function List.mem_cons_self]
      simp only [Obj.references, hup]
    all_goals rfl

/-- A second collection right after the first frees nothing. -/
theorem collect_collect (sizeof : ObjType → ℕ) {vm vm' vm'' : VM} (h : WellFormed vm)
    (h' : collect sizeof vm = some vm') (h'' : collect sizeof vm' = some vm'') :
    vm''.objects = vm'.objects := by
  classical
  obtain ⟨_, he, hwf, hobj, hroots⟩ := exists_collect sizeof h
  obtain rfl := Option.some.inj (h'.symm.trans he)
  obtain ⟨_, he', -, hobj', -⟩ := exists_collect sizeof hwf
  obtain rfl := Option.some.inj (h''.symm.trans he')
  rw [hobj', List.filter_eq_self]
  intro c hc
  rw [hobj] at hc
  rw [decide_eq_true_iff, live_collect hobj hroots]
  exact of_decide_eq_true (List.mem_filter.1 hc).2

end Gc

end Slp
