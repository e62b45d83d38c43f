import Mathlib.Tactic.ByContra
import Slp.Compiler.Emission

/-!
# The jumps of loops

* `LoopLaw`: in the code of a function every placeholder is patched once, to an instruction, every
  `break` jumps to the end of its loop and every `continue` to the next iteration of its loop;
* `Shape.loopsOk`: no loop has pending jumps overwritten by a loop inside it, drops one, or has a
  `continue` that it sends somewhere else.

The invariant of the compiler is `Core`; `OpenOk` says that the pending arrays hold the jumps of
the innermost open loop, and `Frame` what a shape adds to the compiler it starts from.
-/

namespace Slp

/-! ### The condition -/

namespace Shape

/-- The number of `break` (or `continue`) statements that are not in a loop inside the shape. -/
def own (e : Exit) : Shape → ℕ
  | .brk => if e = .brk then 1 else 0
  | .cont => if e = .cont then 1 else 0
  | .seq a b | .branch _ _ a b => a.own e + b.own e
  | .guard _ _ a | .inTry a => a.own e
  | _ => 0

/-- Whether the shape has a `break` (or `continue`) at all. -/
def uses (e : Exit) : Shape → Bool
  | .brk => e = .brk
  | .cont => e = .cont
  | .seq a b | .branch _ _ a b | .whileLoop _ _ a b | .foreverLoop a b => a.uses e || b.uses e
  | .guard _ _ a | .inTry a | .foreachLoop _ _ a => a.uses e
  | .forLoop a b s => a.uses e || b.uses e || s.uses e
  | _ => false

/-- A loop leaves the pending jumps of the enclosing loop alone, and its own fit in the array.
`pending` is what the enclosing loop has pending. -/
def fits (pending : Exit → Bool) (own : Exit → ℕ) (uses : Exit → Bool) : Bool :=
  [Exit.brk, Exit.cont].all fun e => !(pending e && uses e) && own e ≤ maxPending

/-- What is pending after a piece with these statements. -/
def after (inLoop : Bool) (pending : Exit → Bool) (own : Exit → ℕ) (e : Exit) : Bool :=
  pending e || (inLoop && 0 < own e)

/-- Every loop of the shape handles its jumps: no loop inside it has statements of a kind of which
it already has some pending, there are at most `maxPending` of each kind, `while` has no `continue`
of its own, and `for` has none in its step.  Outside of loops the statements emit nothing. -/
def loopsOk : Shape → Bool → (Exit → Bool) → Bool
  | .seq a b, l, p | .branch _ _ a b, l, p =>
    a.loopsOk l p && b.loopsOk l (after l p fun e => a.own e)
  | .guard _ _ a, l, p | .inTry a, l, p => a.loopsOk l p
  | .whileLoop _ _ a b, _, p =>
    fits p (fun e => a.own e + b.own e) (fun e => a.uses e || b.uses e) &&
      (a.own .cont + b.own .cont = 0) && a.loopsOk true (fun _ => false) &&
      b.loopsOk true (after true (fun _ => false) fun e => a.own e)
  | .forLoop a b s, _, p =>
    fits p (fun e => a.own e + b.own e + s.own e) (fun e => a.uses e || b.uses e || s.uses e) &&
      (s.own .cont = 0) && a.loopsOk true (fun _ => false) &&
      b.loopsOk true (after true (fun _ => false) fun e => a.own e) &&
      s.loopsOk true (after true (fun _ => false) fun e => a.own e + b.own e)
  | .foreverLoop b s, _, p =>
    fits p (fun e => b.own e + s.own e) (fun e => b.uses e || s.uses e) &&
      (s.own .cont = 0) && b.loopsOk true (fun _ => false) &&
      s.loopsOk true (after true (fun _ => false) fun e => b.own e)
  | .foreachLoop _ _ a, _, p =>
    fits p (fun e => a.own e) (fun e => a.uses e) && a.loopsOk true (fun _ => false)
  | _, _, _ => true

end Shape

/-! ### The law -/

/-- The jump with operand `j` that leaves an iteration of the loop `l`: a `break` goes to the end
of the loop, a `continue` to the next iteration, where it may take the loop's own jump back. -/
def Routed (code : List UInt8) (e : Exit) (j : ℕ) (l : LoopSpan) : Prop :=
  opcodeAt code (j - 1) = some .jump ∧
    match e with
    | .brk => jumpTarget code j = l.exit
    | .cont => jumpTarget code j < l.exit ∧
      (jumpTarget code j = l.next ∨ LoopsBack code (jumpTarget code j) l.next)

namespace Compiler

/-- The pending jumps of one kind. -/
def pending (c : Compiler) : Exit → Pending
  | .brk => c.breakJumps
  | .cont => c.continueJumps

/-- Ghost: the jumps of the statements of the innermost open loop. -/
def openJumps (c : Compiler) : Exit → List ℕ
  | .brk => c.audit.openBreaks
  | .cont => c.audit.openContinues

/-- Ghost: the jumps of the statements of closed loops. -/
def closed (c : Compiler) : Exit → List (ℕ × LoopSpan)
  | .brk => c.audit.breaks
  | .cont => c.audit.continues

end Compiler

/-- Loop control flow of a compiled function. -/
structure LoopLaw (c : Compiler) : Prop where
  /-- Every placeholder is patched exactly once, -/
  patchedOnce : ∀ j ∈ c.audit.jumps, c.audit.patched.count j = 1
  /-- to an instruction inside the code. -/
  landing : ∀ j ∈ c.audit.jumps, Boundary c.code (jumpTarget c.code j) ∧
    jumpTarget c.code j < c.code.length
  /-- Every `break` and `continue` goes where its loop wants it. -/
  routed : ∀ e, ∀ s ∈ c.closed e, Routed c.code e s.1 s.2

/-! ### The invariant of the code -/

theorem jumpTarget_append {code : List UInt8} {j : ℕ} (h : j + 2 ≤ code.length)
    (more : List UInt8) : jumpTarget (code ++ more) j = jumpTarget code j := by
  rw [jumpTarget, jumpTarget, readShort_append (by omega)]

theorem jumpTarget_patchShort_ne {code : List UInt8} {i j : ℕ} {v : ℤ} (hi : IsJump code i)
    (hj : IsJump code j) (hne : j ≠ i) : jumpTarget (patchShort code i v) j = jumpTarget code j := by
  rw [jumpTarget, jumpTarget, readShort_patchShort_ne]
  rcases hi.apart hj with h | h | h <;> omega

/-- A patched jump goes where the distance was measured to. -/
theorem jumpTarget_patchShort {code : List UInt8} {j t : ℕ} (hj : j + 2 ≤ code.length)
    (hle : j + 2 ≤ t) (hfar : t ≤ j + 2 + 65535) :
    jumpTarget (patchShort code j (t - j - 2)) j = t := by
  have hread := readShort_patchShort (v := (t : ℤ) - j - 2) (show j + 1 < code.length by omega)
  rw [Int.emod_eq_of_lt (by omega) (by omega)] at hread
  rw [jumpTarget]
  omega

namespace LoopsBack

variable {code : List UInt8} {p q j : ℕ}

theorem append (h : LoopsBack code p q) (hend : Boundary code code.length)
    (hp : Boundary code p) (more : List UInt8) : LoopsBack (code ++ more) p q := by
  obtain ⟨hloop, hback⟩ := h
  -- the loop instruction lies in the code as a whole
  have hle := hend.le_length (hp.next hloop)
  have hlen : Opcode.loop.length = 3 := rfl
  refine ⟨?_, ?_⟩
  · rwa [opcodeAt_append (opcodeAt_lt hloop)]
  · rwa [readShort_append (by omega)]

theorem patchShort (h : LoopsBack code p q) (hj : IsJump code j) (hp : Boundary code p) (v : ℤ) :
    LoopsBack (patchShort code j v) p q := by
  obtain ⟨hloop, hback⟩ := h
  obtain ⟨hne, hne'⟩ := hp.ne_of_isJump hj
  have hlen : Opcode.loop.length = 3 := rfl
  refine ⟨by rwa [opcodeAt_patchShort hne hne'], ?_⟩
  rw [readShort_patchShort_ne]
  · exact hback
  · rcases hj.apart_of_boundary hp hloop rfl with h | h <;> omega

end LoopsBack

namespace Routed

variable {code : List UInt8} {e : Exit} {i j : ℕ} {l : LoopSpan}

theorem append (h : Routed code e j l) (hj : j + 2 ≤ code.length)
    (hend : Boundary code code.length) (ht : Boundary code (jumpTarget code j))
    (more : List UInt8) : Routed (code ++ more) e j l := by
  obtain ⟨hop, hroute⟩ := h
  refine ⟨by rwa [opcodeAt_append (opcodeAt_lt hop)], ?_⟩
  rw [jumpTarget_append hj]
  cases e with
  | brk => exact hroute
  | cont =>
    exact ⟨hroute.1, hroute.2.imp_right fun h => h.append hend ht more⟩

theorem patchShort (h : Routed code e j l) (hj : IsJump code j) (hi : IsJump code i)
    (hne : j ≠ i) (ht : Boundary code (jumpTarget code j)) (v : ℤ) :
    Routed (patchShort code i v) e j l := by
  obtain ⟨hop, hroute⟩ := h
  have hjb : Boundary code (j - 1) := by
    obtain ⟨p, -, rfl, hp, -⟩ := hj
    exact hp
  obtain ⟨hp, hp'⟩ := hjb.ne_of_isJump hi
  refine ⟨by rwa [opcodeAt_patchShort hp hp'], ?_⟩
  rw [jumpTarget_patchShort_ne hi hj hne]
  cases e with
  | brk => exact hroute
  | cont =>
    exact ⟨hroute.1, hroute.2.imp_right fun h => h.patchShort hi ht v⟩

end Routed

/-- The invariant of the compiler: the code is whole, the placeholders are operands of jumps, the
patched ones are patched once and to an instruction, and the statements of closed loops are
routed. -/
structure Core (c : Compiler) : Prop where
  boundary : Boundary c.code c.code.length
  isJump : ∀ j ∈ c.audit.jumps, IsJump c.code j
  mem_jumps : ∀ j ∈ c.audit.patched, j ∈ c.audit.jumps
  nodup : c.audit.patched.Nodup
  landing : ∀ j ∈ c.audit.patched, Boundary c.code (jumpTarget c.code j)
  mem_patched : ∀ e, ∀ s ∈ c.closed e, s.1 ∈ c.audit.patched
  routed : ∀ e, ∀ s ∈ c.closed e, Routed c.code e s.1 s.2

namespace Core

variable {c c' : Compiler}

theorem le_length (h : Core c) {j : ℕ} (hj : j ∈ c.audit.jumps) :
    0 < j ∧ j + 2 ≤ c.code.length := by
  obtain ⟨p, -, rfl, -, -, -, hle⟩ := h.isJump j hj
  exact ⟨Nat.succ_pos p, hle⟩

/-- The invariant does not look at the open loops. -/
theorem congr (h : Core c) (hcode : c'.code = c.code) (hjumps : c'.audit.jumps = c.audit.jumps)
    (hpatched : c'.audit.patched = c.audit.patched) (hclosed : ∀ e, c'.closed e = c.closed e) :
    Core c' := by
  refine ⟨?_, ?_, ?_, ?_, ?_, ?_, ?_⟩
  · rw [hcode]; exact h.boundary
  · rw [hcode, hjumps]; exact h.isJump
  · rw [hpatched, hjumps]; exact h.mem_jumps
  · rw [hpatched]; exact h.nodup
  · rw [hpatched, hcode]; exact h.landing
  · intro e; rw [hclosed e, hpatched]; exact h.mem_patched e
  · intro e; rw [hclosed e, hcode]; exact h.routed e

/-- Code is appended and ends with an instruction again. -/
theorem append (h : Core c) {more : List UInt8} (hcode : c'.code = c.code ++ more)
    (hend : Boundary c'.code c'.code.length) (hjumps : ∀ j ∈ c'.audit.jumps,
      j ∈ c.audit.jumps ∨ IsJump c'.code j) (hmem : ∀ j ∈ c.audit.jumps, j ∈ c'.audit.jumps)
    (hpatched : c'.audit.patched = c.audit.patched) (hclosed : ∀ e, c'.closed e = c.closed e) :
    Core c' := by
  have hle : ∀ j ∈ c.audit.patched, j + 2 ≤ c.code.length := fun j hj =>
    (h.le_length (h.mem_jumps j hj)).2
  refine ⟨hend, fun j hj => ?_, ?_, ?_, ?_, ?_, ?_⟩
  · rcases hjumps j hj with hj' | hj'
    · rw [hcode]
      exact (h.isJump j hj').append more
    · exact hj'
  · rw [hpatched]; exact fun j hj => hmem j (h.mem_jumps j hj)
  · rw [hpatched]; exact h.nodup
  · rw [hpatched, hcode]
    intro j hj
    rw [jumpTarget_append (hle j hj)]
    exact (h.landing j hj).append more
  · intro e; rw [hclosed e, hpatched]; exact h.mem_patched e
  · intro e s hs
    rw [hclosed e] at hs
    rw [hcode]
    have hs' := h.mem_patched e s hs
    exact (h.routed e s hs).append (hle _ hs') h.boundary (h.landing _ hs') more

theorem straight (h : Core c) (hs : Straight c c') : Core c' := by
  obtain ⟨bytes, hcode⟩ := hs.code
  refine h.append hcode (hs.boundary h.boundary) ?_ ?_ ?_ ?_
  · rw [hs.audit]; exact fun j hj => .inl hj
  · rw [hs.audit]; exact fun j hj => hj
  · rw [hs.audit]
  · rintro (_ | _) <;> simp only [Compiler.closed, hs.audit]

theorem jumped (h : Core c) {o : Opcode} (ho : o.isJump) : Core (c.jumped o) := by
  refine h.append rfl ?_ ?_ ?_ rfl ?_
  · exact h.boundary.emit o [0xFF, 0xFF] (by rw [Opcode.length_of_isJump ho]; rfl)
  · intro j hj
    rcases List.mem_append.1 hj with hj | hj
    · exact .inl hj
    · rw [List.mem_singleton.1 hj]
      exact .inr (IsJump.emit h.boundary o ho _ _)
  · exact fun j hj => List.mem_append_left _ hj
  · rintro (_ | _) <;> rfl

/-- A placeholder that is patched for the first time, to an instruction within reach. -/
theorem patched (h : Core c) {t j : ℕ} (hj : j ∈ c.audit.jumps) (hnew : j ∉ c.audit.patched)
    (ht : Boundary c.code t) (hle : j + 2 ≤ t) (hfar : t ≤ j + 2 + 65535) :
    Core (c.patched t j) := by
  have hij := h.isJump j hj
  have hne : ∀ i ∈ c.audit.patched, i ≠ j := by
    rintro i hi rfl
    exact hnew hi
  refine ⟨?_, fun i hi => (h.isJump i hi).patchShort hij _, ?_, ?_, ?_, ?_, ?_⟩
  · rw [Compiler.length_patched]
    exact h.boundary.patchShort hij _
  · intro i hi
    rcases List.mem_append.1 hi with hi | hi
    · exact h.mem_jumps i hi
    · rw [List.mem_singleton.1 hi]
      exact hj
  · exact List.nodup_append.2 ⟨h.nodup, by simp, fun i hi k hk => by
      rw [List.mem_singleton.1 hk]
      exact hne i hi⟩
  · intro i hi
    rcases List.mem_append.1 hi with hi | hi
    · have hfix := jumpTarget_patchShort_ne (v := (t : ℤ) - j - 2) hij
        (h.isJump i (h.mem_jumps i hi)) (hne i hi)
      exact (congrArg _ hfix).mpr ((h.landing i hi).patchShort hij _)
    · rw [List.mem_singleton.1 hi]
      have hfix := jumpTarget_patchShort (h.le_length hj).2 hle hfar
      exact (congrArg _ hfix).mpr (ht.patchShort hij _)
  · intro e s hs
    have hs' : s ∈ c.closed e := by cases e <;> exact hs
    exact List.mem_append_left _ (h.mem_patched e s hs')
  · intro e s hs
    have hs' : s ∈ c.closed e := by cases e <;> exact hs
    have hp := h.mem_patched e s hs'
    exact (h.routed e s hs').patchShort (h.isJump _ (h.mem_jumps _ hp)) hij (hne _ hp)
      (h.landing _ hp) _

/-- The statements of a loop that is closed are routed to it. -/
theorem closeLoop (h : Core c) {next exit : ℕ}
    (hmem : ∀ e, ∀ j ∈ c.openJumps e, j ∈ c.audit.patched)
    (hrouted : ∀ e, ∀ j ∈ c.openJumps e, Routed c.code e j ⟨next, exit⟩) :
    Core (exec (Slp.closeLoop next exit) c) := by
  have hclosed : ∀ e, (exec (Slp.closeLoop next exit) c).closed e =
      c.closed e ++ (c.openJumps e).map (·, ⟨next, exit⟩) := by
    rintro (_ | _) <;> rfl
  refine ⟨h.boundary, h.isJump, h.mem_jumps, h.nodup, h.landing, fun e s hs => ?_,
    fun e s hs => ?_⟩
  · rw [hclosed e, List.mem_append, List.mem_map] at hs
    rcases hs with hs | ⟨j, hj, rfl⟩
    · exact h.mem_patched e s hs
    · exact hmem e j hj
  · rw [hclosed e, List.mem_append, List.mem_map] at hs
    rcases hs with hs | ⟨j, hj, rfl⟩
    · exact h.routed e s hs
    · exact hrouted e j hj

end Core

/-! ### Patching the pending jumps -/

namespace Compiler

/-- The compiler after the jumps are patched to `t`. -/
def patchedAll (c : Compiler) (t : ℕ) (js : List ℕ) : Compiler :=
  js.foldl (fun c j => c.patched t j) c

@[simp] theorem patchedAll_cons (c : Compiler) (t j : ℕ) (js : List ℕ) :
    c.patchedAll t (j :: js) = (c.patched t j).patchedAll t js := rfl

/-- Patching changes the code and the record of patches only. -/
theorem patchedAll_eq (c : Compiler) (t : ℕ) (js : List ℕ) :
    c.patchedAll t js = { c with
      code := (c.patchedAll t js).code
      audit.patched := c.audit.patched ++ js } := by
  induction js generalizing c with
  | nil => simp [patchedAll]
  | cons j js ih =>
    rw [patchedAll_cons, ih]
    simp [patched]

@[simp] theorem length_patchedAll (c : Compiler) (t : ℕ) (js : List ℕ) :
    (c.patchedAll t js).code.length = c.code.length := by
  induction js generalizing c with
  | nil => rfl
  | cons j js ih => rw [patchedAll_cons, ih, length_patched]

end Compiler

/-- Steps at the end of a construct: code is appended and the jumps `js` are patched, but the open
statements, the pending arrays and what was patched before stay as they are. -/
structure EndStep (js : List ℕ) (c c' : Compiler) : Prop where
  openJumps : ∀ e, c'.openJumps e = c.openJumps e
  pending : ∀ e, c'.pending e = c.pending e
  loopStart : c'.loopStart = c.loopStart
  jumps : c'.audit.jumps = c.audit.jumps
  patched : c'.audit.patched = c.audit.patched ++ js
  length : c.code.length ≤ c'.code.length
  take : ∀ n, n ≤ c.code.length → (∀ j ∈ js, n ≤ j) → c'.code.take n = c.code.take n
  opcode : ∀ p o, Boundary c.code p → opcodeAt c.code p = some o → opcodeAt c'.code p = some o
  target : ∀ j ∈ c.audit.patched, jumpTarget c'.code j = jumpTarget c.code j
  loopsBack : ∀ p q, Boundary c.code p → LoopsBack c.code p q → LoopsBack c'.code p q

namespace EndStep

variable {c c' c'' : Compiler} {js js' : List ℕ}

theorem trans (h : EndStep js c c') (h' : EndStep js' c' c'') : EndStep (js ++ js') c c'' where
  openJumps e := (h'.openJumps e).trans (h.openJumps e)
  pending e := (h'.pending e).trans (h.pending e)
  loopStart := h'.loopStart.trans h.loopStart
  jumps := h'.jumps.trans h.jumps
  patched := by rw [h'.patched, h.patched, List.append_assoc]
  length := Nat.le_trans h.length h'.length
  take n hn hjs := by
    have hjs' := fun j hj => hjs j (List.mem_append.2 hj)
    rw [h'.take n (Nat.le_trans hn h.length) fun j hj => hjs' j (.inr hj),
      h.take n hn fun j hj => hjs' j (.inl hj)]
  opcode p o hp ho := h'.opcode p o (hp.congr fun q o' hq ho' => h.opcode q o' hq ho')
    (h.opcode p o hp ho)
  target j hj := by
    rw [h'.target j (h.patched ▸ List.mem_append_left _ hj), h.target j hj]
  loopsBack p q hp hl := h'.loopsBack p q (hp.congr fun q o' hq ho' => h.opcode q o' hq ho')
    (h.loopsBack p q hp hl)

theorem straight (hc : Core c) (h : Straight c c') : EndStep [] c c' := by
  obtain ⟨bytes, hcode⟩ := h.code
  refine ⟨?_, ?_, h.loopStart, by rw [h.audit], by rw [h.audit, List.append_nil], ?_, ?_, ?_, ?_,
    ?_⟩
  · rintro (_ | _) <;> simp only [Compiler.openJumps, h.audit]
  · rintro (_ | _)
    · exact h.breakJumps
    · exact h.continueJumps
  · rw [hcode, List.length_append]; omega
  · intro n hn _
    rw [hcode, List.take_append_of_le_length hn]
  · intro p o _ ho
    rwa [hcode, opcodeAt_append (opcodeAt_lt ho)]
  · intro j hj
    rw [hcode, jumpTarget_append (hc.le_length (hc.mem_jumps j hj)).2]
  · intro p q hp hl
    rw [hcode]
    exact hl.append hc.boundary hp bytes

theorem patchedOne (hc : Core c) {t j : ℕ} (hj : j ∈ c.audit.jumps)
    (hnew : j ∉ c.audit.patched) : EndStep [j] c (c.patched t j) where
  openJumps := by rintro (_ | _) <;> rfl
  pending := by rintro (_ | _) <;> rfl
  loopStart := rfl
  jumps := rfl
  patched := rfl
  length := by rw [Compiler.length_patched]
  take n _ hjs := by
    have hle := hjs j (List.mem_singleton_self j)
    simp only [Compiler.patched, Slp.patchShort]
    rw [List.take_set_of_le (by omega), List.take_set_of_le hle]
  opcode p o hp ho := by
    obtain ⟨h, h'⟩ := hp.ne_of_isJump (hc.isJump j hj)
    rw [← ho]
    exact opcodeAt_patchShort h h'
  target i hi := by
    refine jumpTarget_patchShort_ne (hc.isJump j hj) (hc.isJump i (hc.mem_jumps i hi)) ?_
    rintro rfl
    exact hnew hi
  loopsBack p q hp hl := hl.patchShort (hc.isJump j hj) hp _

end EndStep

/-- Placeholders that are patched to one place, each for the first time. -/
theorem Core.patchedAll {c : Compiler} (hc : Core c) {t : ℕ} {js : List ℕ}
    (hmem : ∀ j ∈ js, j ∈ c.audit.jumps) (hnew : ∀ j ∈ js, j ∉ c.audit.patched)
    (hnodup : js.Nodup) (ht : Boundary c.code t)
    (hreach : ∀ j ∈ js, j + 2 ≤ t ∧ t ≤ j + 2 + 65535) :
    Core (c.patchedAll t js) ∧ EndStep js c (c.patchedAll t js) ∧
      ∀ j ∈ js, jumpTarget (c.patchedAll t js).code j = t := by
  induction js generalizing c with
  | nil =>
    exact ⟨hc, EndStep.straight hc (Straight.refl c), fun j hj => absurd hj List.not_mem_nil⟩
  | cons j js ih =>
    have hj := hmem j List.mem_cons_self
    have hjnew := hnew j List.mem_cons_self
    have hjr := hreach j List.mem_cons_self
    obtain ⟨hjs, hnd⟩ := List.nodup_cons.1 hnodup
    have hone := EndStep.patchedOne (t := t) hc hj hjnew
    obtain ⟨hcore, hend, htarget⟩ := ih (hc.patched hj hjnew ht hjr.1 hjr.2)
      (fun i hi => hmem i (List.mem_cons_of_mem j hi))
      (fun i hi hp => by
        rcases List.mem_append.1 hp with hp | hp
        · exact hnew i (List.mem_cons_of_mem j hi) hp
        · exact hjs (List.mem_singleton.1 hp ▸ hi))
      hnd (ht.patchShort (hc.isJump j hj) _) (fun i hi => hreach i (List.mem_cons_of_mem j hi))
    refine ⟨hcore, hone.trans hend, fun i hi => ?_⟩
    rcases List.mem_cons.1 hi with rfl | hi
    · rw [Compiler.patchedAll_cons, hend.target i (List.mem_append_right _ (List.mem_singleton_self i))]
      exact jumpTarget_patchShort (hc.le_length hj).2 hjr.1 hjr.2
    · exact htarget i hi

theorem exec_forM_patchJump {js : List ℕ} {c : Compiler}
    (h : (exec (js.forM patchJump) c).error = none) :
    exec (js.forM patchJump) c = c.patchedAll c.code.length js ∧
      (∀ j ∈ js, c.code.length ≤ j + 2 + 65535) ∧ c.error = none := by
  induction js generalizing c with
  | nil => exact ⟨rfl, fun j hj => absurd hj List.not_mem_nil, h⟩
  | cons j js ih =>
    change (exec (js.forM patchJump) (exec (patchJump j) c)).error = none at h
    obtain ⟨heq, hreach, herr⟩ := ih h
    obtain ⟨hone, hle⟩ := patchJump_ok herr
    rw [hone, Compiler.length_patched] at heq hreach
    refine ⟨?_, fun i hi => ?_, error_of_patchJump herr⟩
    · change exec (js.forM patchJump) (exec (patchJump j) c) = _
      rw [hone, heq, Compiler.patchedAll_cons]
    · rcases List.mem_cons.1 hi with rfl | hi
      · omega
      · exact hreach i hi

theorem exec_writeContinues (t : ℕ) (c : Compiler) :
    exec (writeContinues t) c = c.patchedAll t c.continueJumps.live := by
  change exec (c.continueJumps.live.forM _) c = _
  generalize c.continueJumps.live = js
  induction js generalizing c with
  | nil => rfl
  | cons j js ih => exact ih (c.patched t j)

/-! ### The open statements and the frame -/

/-- The pending arrays hold the jumps of the open statements, which wait for their patch. -/
structure OpenOk (c : Compiler) : Prop where
  mem_jumps : ∀ e, ∀ j ∈ c.openJumps e, j ∈ c.audit.jumps
  opcode : ∀ e, ∀ j ∈ c.openJumps e, opcodeAt c.code (j - 1) = some .jump
  fresh : ∀ e, ∀ j ∈ c.openJumps e, j ∉ c.audit.patched
  nodup : (c.openJumps .brk ++ c.openJumps .cont).Nodup
  slots : ∀ e, (c.pending e).jumps.length = maxPending
  count : ∀ e, (c.pending e).count = (c.openJumps e).length
  live : ∀ e, (c.pending e).live = c.openJumps e

namespace OpenOk

variable {c c' : Compiler}

/-- The open statements survive steps that patch other jumps. -/
theorem endStep (h : OpenOk c) (hc : Core c) {js : List ℕ} (hs : EndStep js c c')
    (hjs : ∀ e, ∀ j ∈ c.openJumps e, j ∉ js) : OpenOk c' := by
  refine ⟨?_, ?_, ?_, ?_, ?_, ?_, ?_⟩
  · intro e; rw [hs.openJumps e, hs.jumps]; exact h.mem_jumps e
  · intro e j hj
    rw [hs.openJumps e] at hj
    obtain ⟨q, -, rfl, hq, -⟩ := hc.isJump j (h.mem_jumps e j hj)
    exact hs.opcode q _ hq (h.opcode e _ hj)
  · intro e j hj hp
    rw [hs.openJumps e] at hj
    rw [hs.patched, List.mem_append] at hp
    exact hp.elim (h.fresh e j hj) (hjs e j hj)
  · rw [hs.openJumps, hs.openJumps]; exact h.nodup
  · intro e; rw [hs.pending e]; exact h.slots e
  · intro e; rw [hs.pending e, hs.openJumps e]; exact h.count e
  · intro e; rw [hs.pending e, hs.openJumps e]; exact h.live e

theorem straight (h : OpenOk c) (hc : Core c) (hs : Straight c c') : OpenOk c' :=
  h.endStep hc (EndStep.straight hc hs) fun _ _ _ => List.not_mem_nil

theorem jumped (h : OpenOk c) (o : Opcode) : OpenOk (c.jumped o) where
  mem_jumps := by
    rintro (_ | _) j hj
    · exact List.mem_append_left _ (h.mem_jumps .brk j hj)
    · exact List.mem_append_left _ (h.mem_jumps .cont j hj)
  opcode := by
    rintro (_ | _) j hj
    · exact (opcodeAt_append (opcodeAt_lt (h.opcode .brk j hj))).trans (h.opcode .brk j hj)
    · exact (opcodeAt_append (opcodeAt_lt (h.opcode .cont j hj))).trans (h.opcode .cont j hj)
  fresh := by
    rintro (_ | _)
    · exact h.fresh .brk
    · exact h.fresh .cont
  nodup := h.nodup
  slots := by
    rintro (_ | _)
    · exact h.slots .brk
    · exact h.slots .cont
  count := by
    rintro (_ | _)
    · exact h.count .brk
    · exact h.count .cont
  live := by
    rintro (_ | _)
    · exact h.live .brk
    · exact h.live .cont

end OpenOk

/-- From `c` to `c'` a piece with `own` open statements is emitted after the code of `c`; of its
placeholders all but those in `loose` are patched or belong to the open statements. -/
structure Frame (loose : List ℕ) (own : Exit → ℕ) (uses : Exit → Bool) (c c' : Compiler) :
    Prop where
  take : c'.code.take c.code.length = c.code
  loopStart : c'.loopStart = c.loopStart
  jumps : ∀ j ∈ c.audit.jumps, j ∈ c'.audit.jumps
  new : ∀ j ∈ c'.audit.jumps, j ∈ c.audit.jumps ∨
    (j ∈ c'.audit.patched ∨ (∃ e, j ∈ c'.openJumps e) ∨ j ∈ loose)
  patched : ∀ j ∈ c.audit.patched, j ∈ c'.audit.patched
  old : ∀ j ∈ c'.audit.patched, j ∈ c.audit.patched ∨ c.code.length < j
  openJumps : ∀ e, ∃ js, c'.openJumps e = c.openJumps e ++ js ∧ js.length = own e ∧
    ∀ j ∈ js, c.code.length < j
  unused : ∀ e, uses e = false → c'.pending e = c.pending e

namespace Frame

variable {loose loose' : List ℕ} {own own' : Exit → ℕ} {uses uses' : Exit → Bool}
  {c c' c'' : Compiler}

theorem length_le (h : Frame loose own uses c c') : c.code.length ≤ c'.code.length := by
  have hlen := congrArg List.length h.take
  rw [List.length_take] at hlen
  omega

theorem trans (h : Frame loose own uses c c') (h' : Frame loose' own' uses' c' c'') :
    Frame (loose ++ loose') (fun e => own e + own' e) (fun e => uses e || uses' e) c c'' where
  take := by
    have hsplit : c''.code.take c.code.length =
        (c''.code.take c'.code.length).take c.code.length := by
      rw [List.take_take, Nat.min_eq_left h.length_le]
    rw [hsplit, h'.take, h.take]
  loopStart := h'.loopStart.trans h.loopStart
  jumps j hj := h'.jumps j (h.jumps j hj)
  new j hj := by
    rcases h'.new j hj with hj' | hp | ho | hl
    · rcases h.new j hj' with hj'' | hp | ⟨e, ho⟩ | hl
      · exact .inl hj''
      · exact .inr (.inl (h'.patched j hp))
      · obtain ⟨js, hjs, -⟩ := h'.openJumps e
        exact .inr (.inr (.inl ⟨e, hjs ▸ List.mem_append_left _ ho⟩))
      · exact .inr (.inr (.inr (List.mem_append_left _ hl)))
    · exact .inr (.inl hp)
    · exact .inr (.inr (.inl ho))
    · exact .inr (.inr (.inr (List.mem_append_right _ hl)))
  patched j hj := h'.patched j (h.patched j hj)
  old j hj := by
    rcases h'.old j hj with hj' | hlt
    · exact h.old j hj'
    · exact .inr (Nat.lt_of_le_of_lt h.length_le hlt)
  openJumps e := by
    obtain ⟨js, hjs, hlen, hnew⟩ := h.openJumps e
    obtain ⟨js', hjs', hlen', hnew'⟩ := h'.openJumps e
    refine ⟨js ++ js', by rw [hjs', hjs, List.append_assoc], by rw [List.length_append, hlen, hlen'],
      fun j hj => ?_⟩
    rcases List.mem_append.1 hj with hj | hj
    · exact hnew j hj
    · exact Nat.lt_of_le_of_lt h.length_le (hnew' j hj)
  unused e he := by
    rw [Bool.or_eq_false_iff] at he
    rw [h'.unused e he.2, h.unused e he.1]

/-- Steps at the end patch some of the loose placeholders. -/
theorem endStep (h : Frame loose own uses c c') {js : List ℕ} (hs : EndStep js c' c'')
    (hjs : ∀ j ∈ js, c.code.length < j) (hloose : ∀ j ∈ loose, j ∈ js ∨ j ∈ loose') :
    Frame loose' own uses c c'' where
  take := by
    rw [hs.take _ h.length_le fun j hj => Nat.le_of_lt (hjs j hj)]
    exact h.take
  loopStart := hs.loopStart.trans h.loopStart
  jumps j hj := hs.jumps ▸ h.jumps j hj
  new j hj := by
    rw [hs.jumps] at hj
    rw [hs.patched]
    rcases h.new j hj with hj | hp | ⟨e, ho⟩ | hl
    · exact .inl hj
    · exact .inr (.inl (List.mem_append_left _ hp))
    · exact .inr (.inr (.inl ⟨e, by rw [hs.openJumps e]; exact ho⟩))
    · rcases hloose j hl with hj | hj
      · exact .inr (.inl (List.mem_append_right _ hj))
      · exact .inr (.inr (.inr hj))
  patched j hj := hs.patched ▸ List.mem_append_left _ (h.patched j hj)
  old j hj := by
    rw [hs.patched, List.mem_append] at hj
    rcases hj with hj | hj
    · exact h.old j hj
    · exact .inr (hjs j hj)
  openJumps e := by
    rw [hs.openJumps e]
    exact h.openJumps e
  unused e he := by rw [hs.pending e, h.unused e he]

theorem refl (c : Compiler) : Frame [] (fun _ => 0) (fun _ => false) c c where
  take := List.take_length
  loopStart := rfl
  jumps _ hj := hj
  new _ hj := .inl hj
  patched _ hj := hj
  old _ hj := .inl hj
  openJumps _ := ⟨[], by simp⟩
  unused _ _ := rfl

theorem jumped (c : Compiler) (o : Opcode) :
    Frame [c.code.length + 1] (fun _ => 0) (fun _ => false) c (c.jumped o) where
  take := by simp [Compiler.jumped]
  loopStart := rfl
  jumps _ hj := List.mem_append_left _ hj
  new _ hj := (List.mem_append.1 hj).imp_right fun h => .inr (.inr h)
  patched _ hj := hj
  old _ hj := .inl hj
  openJumps := by rintro (_ | _) <;> exact ⟨[], by simp [Compiler.openJumps, Compiler.jumped]⟩
  unused := by rintro (_ | _) _ <;> rfl

theorem mono (h : Frame loose own uses c c') (hown : own = own')
    (huses : ∀ e, uses' e = false → uses e = false) : Frame loose own' uses' c c' :=
  { h with
    openJumps := hown ▸ h.openJumps
    unused := fun e he => h.unused e (huses e he) }

end Frame

/-! ### One statement -/

theorem Pending.live_record {p : Pending} (hslots : p.jumps.length = maxPending)
    (hcount : p.count < maxPending) (j : ℕ) : (p.record j).live = p.live ++ [j] := by
  rw [Pending.record, if_pos hcount, Pending.live, Pending.live]
  rw [List.take_add_one, List.getElem?_set_self (by omega), List.take_set_of_le (Nat.le_refl _)]
  rfl

namespace Compiler

/-- The compiler after the jump `j` of a statement is recorded. -/
def opened (c : Compiler) (j : ℕ) : Exit → Compiler
  | .brk => { c with
      breakJumps := c.breakJumps.record j
      audit.openBreaks := c.audit.openBreaks ++ [j] }
  | .cont => { c with
      continueJumps := c.continueJumps.record j
      audit.openContinues := c.audit.openContinues ++ [j] }

variable (c : Compiler) (j : ℕ) {e i : Exit}

@[simp] theorem opened_code : (c.opened j e).code = c.code := by cases e <;> rfl

@[simp] theorem opened_jumps : (c.opened j e).audit.jumps = c.audit.jumps := by cases e <;> rfl

@[simp] theorem opened_patched : (c.opened j e).audit.patched = c.audit.patched := by
  cases e <;> rfl

@[simp] theorem opened_loopStart : (c.opened j e).loopStart = c.loopStart := by cases e <;> rfl

@[simp] theorem opened_error : (c.opened j e).error = c.error := by cases e <;> rfl

@[simp] theorem opened_closed : (c.opened j e).closed i = c.closed i := by
  cases e <;> cases i <;> rfl

theorem opened_openJumps :
    (c.opened j e).openJumps i = c.openJumps i ++ if e = i then [j] else [] := by
  cases e <;> cases i <;> simp [opened, openJumps]

theorem opened_pending :
    (c.opened j e).pending i = if e = i then (c.pending i).record j else c.pending i := by
  cases e <;> cases i <;> rfl

end Compiler

theorem exec_emitExit (e : Exit) (c : Compiler) :
    exec (emitExit e) c = ((exec popHandlers c).jumped .jump).opened
      ((exec popHandlers c).code.length + 1) e := by
  cases e <;> simp [emitExit, emitBreak, emitContinue, Compiler.opened]

theorem Core.opened {c : Compiler} (h : Core c) (j : ℕ) (e : Exit) : Core (c.opened j e) :=
  h.congr (by simp) (by simp) (by simp) (by simp)

theorem OpenOk.opened {c : Compiler} (h : OpenOk c) (hc : Core c) {e : Exit}
    (hroom : (c.openJumps e).length < maxPending) :
    OpenOk ((c.jumped .jump).opened (c.code.length + 1) e) := by
  have hj := h.jumped .jump
  have hsame : ∀ i, (c.jumped .jump).openJumps i = c.openJumps i := by rintro (_ | _) <;> rfl
  have hfresh : ∀ i, c.code.length + 1 ∉ c.openJumps i := fun i hi => by
    have := (hc.le_length (h.mem_jumps i _ hi)).2
    omega
  have hnew : ∀ i j, j ∈ ((c.jumped .jump).opened (c.code.length + 1) e).openJumps i →
      j ∈ c.openJumps i ∨ j = c.code.length + 1 := fun i j hmem => by
    rw [Compiler.opened_openJumps, hsame, List.mem_append] at hmem
    refine hmem.imp_right fun hmem => ?_
    split at hmem
    · exact List.mem_singleton.1 hmem
    · exact absurd hmem List.not_mem_nil
  refine ⟨fun i j hmem => ?_, fun i j hmem => ?_, fun i j hmem => ?_, ?_, fun i => ?_, fun i => ?_,
    fun i => ?_⟩
  · rw [Compiler.opened_jumps]
    rcases hnew i j hmem with hmem | rfl
    · exact hj.mem_jumps i j ((hsame i).symm ▸ hmem)
    · exact List.mem_append_right _ (List.mem_singleton_self _)
  · rw [Compiler.opened_code]
    rcases hnew i j hmem with hmem | rfl
    · exact hj.opcode i j ((hsame i).symm ▸ hmem)
    · exact opcodeAt_emit c.code .jump [0xFF, 0xFF]
  · rw [Compiler.opened_patched]
    rcases hnew i j hmem with hmem | rfl
    · exact hj.fresh i j ((hsame i).symm ▸ hmem)
    · intro hp
      have := (hc.le_length (hc.mem_jumps _ hp)).2
      omega
  · have hnd : ((c.code.length + 1) :: (c.openJumps .brk ++ c.openJumps .cont)).Nodup :=
      List.nodup_cons.2 ⟨fun hmem => (List.mem_append.1 hmem).elim (hfresh _) (hfresh _), h.nodup⟩
    refine List.Perm.nodup (List.Perm.symm ?_) hnd
    rw [Compiler.opened_openJumps, Compiler.opened_openJumps, hsame, hsame]
    cases e
    · simp only [if_true, reduceCtorEq, if_false, List.append_nil, List.append_assoc]
      exact List.perm_middle
    · simp only [if_true, reduceCtorEq, if_false, List.append_nil, ← List.append_assoc]
      exact List.perm_append_singleton _ _
  · rw [Compiler.opened_pending]
    split
    · rw [Pending.record]
      split
      · rw [List.length_set]; exact hj.slots i
      · exact hj.slots i
    · exact hj.slots i
  · rw [Compiler.opened_pending, Compiler.opened_openJumps, hsame]
    split
    · rename_i hi
      subst hi
      have hcount := hj.count e
      rw [hsame] at hcount
      rw [Pending.record, if_pos (by omega), List.length_append, hcount]
      rfl
    · rw [List.append_nil, ← hsame]; exact hj.count i
  · rw [Compiler.opened_pending, Compiler.opened_openJumps, hsame]
    split
    · rename_i hi
      subst hi
      have hcount := hj.count e
      rw [hsame] at hcount
      rw [Pending.live_record (hj.slots e) (by omega), hj.live e, hsame]
    · rw [List.append_nil, ← hsame]; exact hj.live i

theorem Frame.opened (c : Compiler) (e : Exit) :
    Frame [] (fun i => if e = i then 1 else 0) (fun i => e = i) c
      ((c.jumped .jump).opened (c.code.length + 1) e) := by
  have h := Frame.jumped c .jump
  have hsame : ∀ i, (c.jumped .jump).openJumps i = c.openJumps i := by rintro (_ | _) <;> rfl
  refine ⟨by simpa using h.take, by simpa using h.loopStart, by simpa using h.jumps,
    fun j hj => ?_, by simpa using h.patched, by simpa using h.old, fun i => ?_, fun i hi => ?_⟩
  · rw [Compiler.opened_jumps] at hj
    rcases List.mem_append.1 hj with hj | hj
    · exact .inl hj
    · refine .inr (.inr (.inl ⟨e, ?_⟩))
      rw [Compiler.opened_openJumps, if_pos rfl]
      exact List.mem_append_right _ hj
  · rw [Compiler.opened_openJumps, hsame]
    refine ⟨_, rfl, by split <;> rfl, fun j hj => ?_⟩
    split at hj
    · rw [List.mem_singleton.1 hj]; omega
    · exact absurd hj List.not_mem_nil
  · rw [Compiler.opened_pending, if_neg (by simpa using hi)]
    exact h.unused i rfl

/-! ### One loop -/

/-- What the code of a piece does for the jumps of the loop it stands in. -/
structure Emitted (loose : List ℕ) (own : Exit → ℕ) (uses : Exit → Bool) (c c' : Compiler) :
    Prop where
  core : Core c'
  openOk : OpenOk c'
  frame : Frame loose own uses c c'

theorem Core.enterLoop {c : Compiler} (h : Core c) : Core (exec enterLoop c) :=
  h.congr rfl rfl rfl (by rintro (_ | _) <;> rfl)

theorem openJumps_enterLoop (c : Compiler) (e : Exit) : (exec enterLoop c).openJumps e = [] := by
  cases e <;> rfl

theorem OpenOk.enterLoop {c : Compiler} (h : OpenOk c) : OpenOk (exec enterLoop c) := by
  have hnone := openJumps_enterLoop c
  refine ⟨?_, ?_, ?_, ?_, ?_, ?_, ?_⟩
  · intro e j hj; rw [hnone] at hj; cases hj
  · intro e j hj; rw [hnone] at hj; cases hj
  · intro e j hj; rw [hnone] at hj; cases hj
  · rw [hnone, hnone]; exact List.nodup_nil
  · rintro (_ | _)
    · exact h.slots .brk
    · exact h.slots .cont
  · rintro (_ | _) <;> rfl
  · rintro (_ | _) <;> rfl

theorem opcodeAt_of_take {code code' : List UInt8} {n p : ℕ} {o : Opcode}
    (htake : code'.take n = code) (hop : opcodeAt code p = some o) : opcodeAt code' p = some o := by
  have hlt := opcodeAt_lt hop
  rw [← htake, List.length_take] at hlt
  rw [← hop, ← htake, opcodeAt, opcodeAt, List.getElem?_take_of_lt (by omega)]

/-- A loop whose statements are routed, seen from the code around it. -/
theorem emitted_leave {c last : Compiler} (pending : Exit → Bool) {own : Exit → ℕ}
    {uses : Exit → Bool} {next : ℕ} (hc : Core c) (ho : OpenOk c)
    (hpend : ∀ e, c.openJumps e ≠ [] → pending e) (hfits : Shape.fits pending own uses)
    (hcore : Core last) (hframe : Frame [] own uses (exec enterLoop c) last)
    (hslots : ∀ e, (last.pending e).jumps.length = maxPending)
    (hdone : ∀ e, ∀ j ∈ last.openJumps e, j ∈ last.audit.patched)
    (hrouted : ∀ e, ∀ j ∈ last.openJumps e, Routed last.code e j ⟨next, last.code.length⟩) :
    Emitted [] (fun _ => 0) uses c (c.leave next last) := by
  have hcl := hcore.closeLoop hdone hrouted
  have hopen : ∀ e, (c.leave next last).openJumps e =
      c.openJumps e := by
    rintro (_ | _) <;> rfl
  have hpending : ∀ e, (c.leave next last).pending e =
      ⟨(last.pending e).jumps, (c.pending e).count⟩ := by
    rintro (_ | _) <;> rfl
  have henter : ∀ e, ((exec enterLoop c).pending e).jumps = (c.pending e).jumps := by
    rintro (_ | _) <;> rfl
  have hunused : ∀ e, uses e = false →
      (c.leave next last).pending e = c.pending e :=
    fun e he => by
      rw [hpending e, hframe.unused e he, henter e]
  refine ⟨hcl.congr rfl rfl rfl (by rintro (_ | _) <;> rfl),
    ⟨fun e j hj => ?_, fun e j hj => ?_, fun e j hj hp => ?_, ?_, fun e => ?_, fun e => ?_,
      fun e => ?_⟩, ⟨hframe.take, rfl, hframe.jumps, fun j hj => ?_, hframe.patched, hframe.old,
      fun e => ⟨[], by rw [hopen e, List.append_nil], rfl, fun j hj => absurd hj List.not_mem_nil⟩,
      hunused⟩⟩
  · rw [hopen e] at hj
    exact hframe.jumps j (ho.mem_jumps e j hj)
  · rw [hopen e] at hj
    exact opcodeAt_of_take hframe.take (ho.opcode e j hj)
  · rw [hopen e] at hj
    rcases hframe.old j hp with hp | hlt
    · exact ho.fresh e j hj hp
    · have hle := (hc.le_length (ho.mem_jumps e j hj)).2
      have hsame : (exec enterLoop c).code.length = c.code.length := rfl
      omega
  · rw [hopen, hopen]; exact ho.nodup
  · rw [hpending e]; exact hslots e
  · rw [hpending e, hopen e]; exact ho.count e
  · -- a pending array that the loop wrote to had nothing pending before
    cases hu : uses e with
    | false => rw [hunused e hu, hopen e]; exact ho.live e
    | true =>
      have hempty : c.openJumps e = [] := by
        by_contra hne
        have hp := hpend e hne
        have hall := List.all_eq_true.1 hfits e (by cases e <;> simp)
        simp [hp, hu] at hall
      rw [hopen e, hpending e, hempty, Pending.live, ho.count e, hempty]
      rfl
  · rcases hframe.new j hj with hj | hp | ⟨e, hj⟩ | hj
    · exact .inl hj
    · exact .inr (.inl hp)
    · exact .inr (.inl (hdone e j hj))
    · exact absurd hj List.not_mem_nil

/-! ### The end of a loop -/

/-- The open statements of one kind wait for their patch. -/
structure Waiting (c : Compiler) (e : Exit) : Prop where
  mem_jumps : ∀ j ∈ c.openJumps e, j ∈ c.audit.jumps
  opcode : ∀ j ∈ c.openJumps e, opcodeAt c.code (j - 1) = some .jump
  fresh : ∀ j ∈ c.openJumps e, j ∉ c.audit.patched
  nodup : (c.openJumps e).Nodup
  live : (c.pending e).live = c.openJumps e

/-- The open statements of one kind jump to `t`. -/
def Sent (c : Compiler) (e : Exit) (t : ℕ) : Prop :=
  ∀ j ∈ c.openJumps e, j ∈ c.audit.patched ∧ opcodeAt c.code (j - 1) = some .jump ∧
    jumpTarget c.code j = t

theorem OpenOk.waiting {c : Compiler} (h : OpenOk c) (e : Exit) : Waiting c e := by
  obtain ⟨hb, hk, -⟩ := List.nodup_append.1 h.nodup
  refine ⟨h.mem_jumps e, h.opcode e, h.fresh e, ?_, h.live e⟩
  cases e
  · exact hb
  · exact hk

theorem opcode_endStep {c c' : Compiler} (hc : Core c) {js : List ℕ} (hs : EndStep js c c') {j : ℕ}
    (hj : j ∈ c.audit.jumps) (hop : opcodeAt c.code (j - 1) = some .jump) :
    opcodeAt c'.code (j - 1) = some .jump := by
  obtain ⟨q, -, rfl, hq, -⟩ := hc.isJump j hj
  exact hs.opcode q _ hq hop

namespace Waiting

variable {c c' : Compiler} {e : Exit} {js : List ℕ} {t : ℕ}

theorem endStep (h : Waiting c e) (hc : Core c) (hs : EndStep js c c')
    (hjs : ∀ j ∈ c.openJumps e, j ∉ js) : Waiting c' e := by
  refine ⟨?_, ?_, ?_, ?_, ?_⟩
  · rw [hs.openJumps e, hs.jumps]; exact h.mem_jumps
  · rw [hs.openJumps e]
    exact fun j hj => opcode_endStep hc hs (h.mem_jumps j hj) (h.opcode j hj)
  · rw [hs.openJumps e, hs.patched]
    exact fun j hj hp => (List.mem_append.1 hp).elim (h.fresh j hj) (hjs j hj)
  · rw [hs.openJumps e]; exact h.nodup
  · rw [hs.pending e, hs.openJumps e]; exact h.live

/-- The open statements of one kind are patched to `t`. -/
theorem sent (h : Waiting c e) (hc : Core c) (ht : Boundary c.code t)
    (hreach : ∀ j ∈ c.openJumps e, j + 2 ≤ t ∧ t ≤ j + 2 + 65535) :
    Core (c.patchedAll t (c.openJumps e)) ∧
      EndStep (c.openJumps e) c (c.patchedAll t (c.openJumps e)) ∧
      Sent (c.patchedAll t (c.openJumps e)) e t := by
  obtain ⟨hcore, hend, htarget⟩ := hc.patchedAll h.mem_jumps h.fresh h.nodup ht hreach
  refine ⟨hcore, hend, fun j hj => ?_⟩
  rw [hend.openJumps e] at hj
  exact ⟨hend.patched ▸ List.mem_append_right _ hj,
    opcode_endStep hc hend (h.mem_jumps j hj) (h.opcode j hj), htarget j hj⟩

end Waiting

theorem Sent.endStep {c c' : Compiler} {e : Exit} {t : ℕ} {js : List ℕ} (h : Sent c e t)
    (hc : Core c) (hs : EndStep js c c') : Sent c' e t := by
  intro j hj
  rw [hs.openJumps e] at hj
  obtain ⟨hp, hop, ht⟩ := h j hj
  exact ⟨hs.patched ▸ List.mem_append_left _ hp, opcode_endStep hc hs (hc.mem_jumps j hp) hop,
    (hs.target j hp).trans ht⟩

/-- The pending jumps of one kind are patched to the end of the code. -/
theorem Waiting.patchLive {c : Compiler} {e : Exit} (h : Waiting c e) (hc : Core c)
    (herr : (exec ((c.pending e).live.forM patchJump) c).error = none) :
    let c' := exec ((c.pending e).live.forM patchJump) c
    Core c' ∧ EndStep (c.openJumps e) c c' ∧ Sent c' e c'.code.length ∧
      c'.code.length = c.code.length := by
  intro c'
  obtain ⟨heq, hreach, -⟩ := exec_forM_patchJump herr
  have hc' : c' = c.patchedAll c.code.length (c.openJumps e) := by rw [← h.live]; exact heq
  rw [h.live] at hreach
  rw [hc', Compiler.length_patchedAll]
  obtain ⟨hcore, hend, hsent⟩ := h.sent hc hc.boundary fun j hj =>
    ⟨(hc.le_length (h.mem_jumps j hj)).2, hreach j hj⟩
  exact ⟨hcore, hend, hsent, rfl⟩

theorem Waiting.patchBreaks {c : Compiler} (h : Waiting c .brk) (hc : Core c)
    (herr : (exec patchBreaks c).error = none) :
    Core (exec patchBreaks c) ∧ EndStep (c.openJumps .brk) c (exec patchBreaks c) ∧
      Sent (exec patchBreaks c) .brk (exec patchBreaks c).code.length ∧
      (exec patchBreaks c).code.length = c.code.length :=
  h.patchLive hc herr

theorem Waiting.patchContinues {c : Compiler} (h : Waiting c .cont) (hc : Core c)
    (herr : (exec patchContinues c).error = none) :
    Core (exec patchContinues c) ∧ EndStep (c.openJumps .cont) c (exec patchContinues c) ∧
      Sent (exec patchContinues c) .cont (exec patchContinues c).code.length ∧
      (exec patchContinues c).code.length = c.code.length :=
  h.patchLive hc herr

theorem straight_emitLoop {l : ℤ} {c : Compiler} (h : (exec (emitLoop l) c).error = none) :
    Straight c (exec (emitLoop l) c) := by
  rw [exec_emitLoop] at h ⊢
  split at h
  · exact absurd h (exec_compilerError_error _ _)
  · rename_i hle
    rw [if_neg hle]
    exact Straight.of_op .loop (n := 2)
      ⟨⟨[_, _], by simp; exact ⟨rfl, rfl⟩, rfl⟩, rfl, rfl, rfl, rfl, id⟩ rfl

/-- A loose placeholder is patched to the end of the code. -/
theorem endStep_patchJump {c : Compiler} {j : ℕ} (hc : Core c) (hj : j ∈ c.audit.jumps)
    (hnew : j ∉ c.audit.patched) (herr : (exec (patchJump j) c).error = none) :
    Core (exec (patchJump j) c) ∧ EndStep [j] c (exec (patchJump j) c) := by
  obtain ⟨heq, hle⟩ := patchJump_ok herr
  have hlen := (hc.le_length hj).2
  rw [heq]
  exact ⟨hc.patched hj hnew hc.boundary hlen (by omega), EndStep.patchedOne hc hj hnew⟩

/-- From `c`, the end of the body, to `last`, the end of the loop: the loose placeholders and the
open statements are patched, the latter to the place they want. -/
structure Closing (loose : List ℕ) (next : ℕ) (c last : Compiler) (js : List ℕ) : Prop where
  core : Core last
  endStep : EndStep js c last
  mem_loose : ∀ j ∈ loose, j ∈ js
  mem_open : ∀ e, ∀ j ∈ c.openJumps e, j ∈ js
  only : ∀ j ∈ js, j ∈ loose ∨ ∃ e, j ∈ c.openJumps e
  routed : ∀ e, ∀ j ∈ c.openJumps e, Routed last.code e j ⟨next, last.code.length⟩

section

variable {c : Compiler} {j next : ℕ}

theorem disjoint_openJumps (ho : OpenOk c) {i : ℕ} (hb : i ∈ c.openJumps .brk)
    (hk : i ∈ c.openJumps .cont) : False :=
  (List.nodup_append.1 ho.nodup).2.2 i hb i hk rfl

/-- The jump back and the exit of a loop that has one. -/
theorem endStep_exit (hc : Core c) (hj : j ∈ c.audit.jumps) (hnew : j ∉ c.audit.patched)
    (herr : (exec (patchJump j) (exec (emitLoop c.loopStart) c)).error = none) :
    Core (exec (patchJump j) (exec (emitLoop c.loopStart) c)) ∧
      EndStep [j] c (exec (patchJump j) (exec (emitLoop c.loopStart) c)) := by
  have hloop := straight_emitLoop (error_of_patchJump herr)
  obtain ⟨hc₂, hs₂⟩ := endStep_patchJump (hc.straight hloop) (by rwa [hloop.audit])
    (by rwa [hloop.audit]) herr
  exact ⟨hc₂, (EndStep.straight hc hloop).trans hs₂⟩

theorem endStep_pop (hc : Core c) :
    Core (exec (emitOp .pop) c) ∧ EndStep [] c (exec (emitOp .pop) c) :=
  ⟨hc.straight (straight_emitOp .pop rfl c), EndStep.straight hc (straight_emitOp .pop rfl c)⟩

/-- The end of a `while` patches all its statements to the exit. -/
theorem endStep_endWhile (hc : Core c) (ho : OpenOk c) (hj : j ∈ c.audit.jumps)
    (hnew : j ∉ c.audit.patched) (hjo : ∀ e, j ∉ c.openJumps e)
    (herr : (exec (endWhile j) c).error = none) :
    Core (exec (endWhile j) c) ∧
      EndStep (j :: (c.openJumps .brk ++ c.openJumps .cont)) c (exec (endWhile j) c) ∧
      ∀ e, Sent (exec (endWhile j) c) e (exec (endWhile j) c).code.length := by
  rw [exec_endWhile] at herr ⊢
  have herr₂ := error_of_patchContinues herr
  have herr₁ := error_of_patchBreaks herr₂
  rw [error_emitOp] at herr₁
  obtain ⟨hc₁, hs₁⟩ := endStep_exit hc hj hnew herr₁
  obtain ⟨hc₂, hs₂⟩ := endStep_pop hc₁
  have hs₂ := hs₁.trans hs₂
  generalize exec (emitOp .pop) (exec (patchJump j) (exec (emitLoop c.loopStart) c)) = c₂ at *
  have hwait : ∀ e, Waiting c₂ e := fun e => (ho.waiting e).endStep hc hs₂ fun i hi hij =>
    hjo e (List.mem_singleton.1 hij ▸ hi)
  obtain ⟨hc₃, hs₃, hsent₃, hlen₃⟩ := (hwait .brk).patchBreaks hc₂ herr₂
  have hwait₃ : Waiting (exec patchBreaks c₂) .cont :=
    (hwait .cont).endStep hc₂ hs₃ fun i hi hb => by
      rw [hs₂.openJumps] at hi hb
      exact disjoint_openJumps ho hb hi
  obtain ⟨hc₄, hs₄, hsent₄, hlen₄⟩ := hwait₃.patchContinues hc₃ herr
  have hs := hs₂.trans (hs₃.trans hs₄)
  rw [hs₃.openJumps, hs₂.openJumps, hs₂.openJumps] at hs
  refine ⟨hc₄, hs, ?_⟩
  rintro (_ | _)
  · rw [hlen₄]
    exact hsent₃.endStep hc₃ hs₄
  · exact hsent₄

/-- A `while` may have no `continue` of its own. -/
theorem closing_endWhile (hc : Core c) (ho : OpenOk c) (hj : j ∈ c.audit.jumps)
    (hnew : j ∉ c.audit.patched) (hjo : ∀ e, j ∉ c.openJumps e) (hnone : c.openJumps .cont = [])
    (herr : (exec (endWhile j) c).error = none) :
    ∃ js, Closing [j] next c (exec (endWhile j) c) js := by
  obtain ⟨hlast, hs, hsent⟩ := endStep_endWhile hc ho hj hnew hjo herr
  refine ⟨_, hlast, hs, fun i hi => ?_, ?_, ?_, ?_⟩
  · rw [List.mem_singleton.1 hi]
    exact List.mem_cons_self
  · rintro (_ | _) i hi
    · exact List.mem_cons_of_mem _ (List.mem_append_left _ hi)
    · exact List.mem_cons_of_mem _ (List.mem_append_right _ hi)
  · intro i hi
    rcases List.mem_cons.1 hi with rfl | hi
    · exact .inl (List.mem_singleton_self _)
    · exact .inr ((List.mem_append.1 hi).elim (fun h => ⟨_, h⟩) fun h => ⟨_, h⟩)
  · rintro (_ | _) i hi
    · obtain ⟨-, hop, ht⟩ := hsent .brk i (by rwa [hs.openJumps])
      exact ⟨hop, ht⟩
    · rw [hnone] at hi
      cases hi

/-- The step of a `for` is where its `continue` statements go; both kinds of `for` end alike after
the jump back and the exit, if there is one. -/
theorem closing_for {c₁ : Compiler} {loose : List ℕ} (hc : Core c) (ho : OpenOk c)
    (hc₁ : Core c₁) (hs₁ : EndStep loose c c₁) (hlo : ∀ e, ∀ j ∈ c.openJumps e, j ∉ loose)
    (hnext : Boundary c.code next) (hlt : next < c₁.code.length)
    (hreach : ∀ i ∈ c.openJumps .cont, i + 2 ≤ next ∧ next ≤ i + 2 + 65535)
    (herr : (exec patchBreaks (exec (writeContinues next) c₁)).error = none) :
    ∃ js, Closing loose next c (exec patchBreaks (exec (writeContinues next) c₁)) js := by
  have hwait : ∀ e, Waiting c₁ e := fun e => (ho.waiting e).endStep hc hs₁ (hlo e)
  have hcont : exec (writeContinues next) c₁ = c₁.patchedAll next (c₁.openJumps .cont) := by
    rw [exec_writeContinues]
    exact congrArg _ (hwait .cont).live
  have hnext₁ : Boundary c₁.code next := hnext.congr hs₁.opcode
  obtain ⟨hc₂, hs₂, hsent⟩ := (hwait .cont).sent hc₁ hnext₁ (by rwa [hs₁.openJumps])
  have hlen : (exec (writeContinues next) c₁).code.length = c₁.code.length := by
    rw [hcont, Compiler.length_patchedAll]
  rw [← hcont] at hc₂ hs₂ hsent
  have hwait₂ : Waiting (exec (writeContinues next) c₁) .brk :=
    (hwait .brk).endStep hc₁ hs₂ fun i hi hk => by
      rw [hs₁.openJumps] at hi hk
      exact disjoint_openJumps ho hi hk
  obtain ⟨hc₃, hs₃, hsent₃, hlen₃⟩ := hwait₂.patchBreaks hc₂ herr
  have hsentc := hsent.endStep hc₂ hs₃
  have hs := hs₁.trans (hs₂.trans hs₃)
  rw [hs₂.openJumps] at hs
  refine ⟨_, hc₃, hs, fun i hi => List.mem_append_left _ hi, ?_, ?_, ?_⟩
  · rintro (_ | _) i hi
    · exact List.mem_append_right _ (List.mem_append_right _ (by rwa [hs₁.openJumps]))
    · exact List.mem_append_right _ (List.mem_append_left _ (by rwa [hs₁.openJumps]))
  · intro i hi
    rw [hs₁.openJumps, hs₁.openJumps] at hi
    rcases List.mem_append.1 hi with hi | hi
    · exact .inl hi
    · exact .inr ((List.mem_append.1 hi).elim (fun h => ⟨_, h⟩) fun h => ⟨_, h⟩)
  · rintro (_ | _) i hi
    · obtain ⟨-, hop, ht⟩ := hsent₃ i (by rwa [hs.openJumps])
      exact ⟨hop, ht⟩
    · obtain ⟨-, hop, ht⟩ := hsentc i (by rwa [hs.openJumps])
      have hle := hs₃.length
      refine ⟨hop, ?_, .inl ht⟩
      have hlt' : next < (exec patchBreaks (exec (writeContinues next) c₁)).code.length := by
        omega
      exact ht.symm ▸ hlt'

/-- A `foreach` sends its `continue` statements to its jump back. -/
theorem closing_endForeach (hc : Core c) (ho : OpenOk c) (hj : j ∈ c.audit.jumps)
    (hnew : j ∉ c.audit.patched) (hjo : ∀ e, j ∉ c.openJumps e) (hstart : c.loopStart = next)
    (hle : next ≤ c.code.length) (herr : (exec (endForeach j) c).error = none) :
    ∃ js, Closing [j] next c (exec (endForeach j) c) js := by
  rw [exec_endForeach] at herr ⊢
  have herr₃ := error_of_patchBreaks herr
  have herr₂ := error_of_patchJump herr₃
  obtain ⟨hc₁, hs₁, hsent, hlen⟩ :=
    (ho.waiting .cont).patchContinues hc (error_of_emitLoop herr₂)
  have hj₁ : j ∈ (exec patchContinues c).audit.jumps := hs₁.jumps.symm ▸ hj
  have hnew₁ : j ∉ (exec patchContinues c).audit.patched := by
    rw [hs₁.patched, List.mem_append]
    exact fun h => h.elim hnew (hjo .cont)
  have hstart₁ : (exec patchContinues c).loopStart = next := hs₁.loopStart.trans hstart
  have hwait₁ : Waiting (exec patchContinues c) .brk :=
    (ho.waiting .brk).endStep hc hs₁ fun i hi hk => disjoint_openJumps ho hi hk
  generalize exec patchContinues c = c₁ at *
  have hloop := straight_emitLoop herr₂
  obtain ⟨a, b, heq, -, hback⟩ := emitLoop_ok (hstart₁ ▸ herr₂)
  -- the jump back is where the `continue` statements land
  have hback : LoopsBack (exec (emitLoop c₁.loopStart) c₁).code c₁.code.length next := by
    rw [hstart₁]
    exact hback (by omega)
  have hlen₂ : (exec (emitLoop c₁.loopStart) c₁).code.length = c₁.code.length + 3 := by
    rw [hstart₁, heq]
    simp
  have hb : Boundary (exec (emitLoop c₁.loopStart) c₁).code c₁.code.length := by
    obtain ⟨bytes, hcode⟩ := hloop.code
    rw [hcode]
    exact hc₁.boundary.append bytes
  have hcl := hc₁.straight hloop
  have hsl := EndStep.straight hc₁ hloop
  have hwait₂ := hwait₁.endStep hc₁ hsl fun _ _ => List.not_mem_nil
  have hsent₂ := hsent.endStep hc₁ hsl
  have hj₂ : j ∈ (exec (emitLoop c₁.loopStart) c₁).audit.jumps := by rwa [hloop.audit]
  have hnew₂ : j ∉ (exec (emitLoop c₁.loopStart) c₁).audit.patched := by rwa [hloop.audit]
  have hjo₂ : ∀ i ∈ (exec (emitLoop c₁.loopStart) c₁).openJumps .brk, i ∉ [j] := fun i hi hij => by
    rw [hsl.openJumps, hs₁.openJumps] at hi
    exact hjo _ (List.mem_singleton.1 hij ▸ hi)
  have hs₂ := hs₁.trans hsl
  generalize exec (emitLoop c₁.loopStart) c₁ = c₂ at *
  obtain ⟨hc₃, hs₃⟩ := endStep_patchJump hcl hj₂ hnew₂ herr₃
  have hwait₃ := hwait₂.endStep hcl hs₃ hjo₂
  have hsent₃ := hsent₂.endStep hcl hs₃
  obtain ⟨hc₄, hs₄, hsent₄, hlen₄⟩ := hwait₃.patchBreaks hc₃ herr
  have hsent₅ := hsent₃.endStep hc₃ hs₄
  have hs := hs₂.trans (hs₃.trans hs₄)
  rw [hs₃.openJumps, hs₂.openJumps, List.append_nil] at hs
  refine ⟨_, hc₄, hs, ?_, ?_, ?_, ?_⟩
  · exact fun i hi => List.mem_append_right _ (List.mem_append_left _ hi)
  · rintro (_ | _) i hi
    · exact List.mem_append_right _ (List.mem_append_right _ hi)
    · exact List.mem_append_left _ hi
  · intro i hi
    rcases List.mem_append.1 hi with hi | hi
    · exact .inr ⟨_, hi⟩
    · exact (List.mem_append.1 hi).imp_right fun hi => ⟨_, hi⟩
  · rintro (_ | _) i hi
    · obtain ⟨-, hop, ht⟩ := hsent₄ i (by rwa [hs.openJumps])
      exact ⟨hop, ht⟩
    · obtain ⟨-, hop, ht⟩ := hsent₅ i (by rwa [hs.openJumps])
      have hle₃ := hs₃.length
      refine ⟨hop, ?_, .inr ?_⟩
      · rw [ht, hlen₄]
        dsimp only
        omega
      · rw [ht]
        exact hs₄.loopsBack _ _ (hb.congr hs₃.opcode) (hs₃.loopsBack _ _ hb hback)

end

end Slp
