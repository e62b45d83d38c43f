import Mathlib.Data.List.Nodup
import Slp.Compiler.Overwrite

/-!
# The law of loop control flow

`emit_lawful` runs a shape from a compiler whose pending arrays are in order.  If the shape fits
(`Fits`), they are in order afterwards and everything emitted is patched and routed; otherwise some
placeholder is doomed.  From an empty compiler this says when `LoopLaw` holds (`loopLaw_iff`).
-/

namespace Slp

namespace Compiler

/-- The kinds of statements that the innermost loop has pending. -/
def waits (c : Compiler) (e : Exit) : Bool := !(c.openJumps e).isEmpty

/-- Whether a `break` or `continue` would be in a loop. -/
def inLoop (c : Compiler) : Bool := 0 ≤ c.loopStart

end Compiler

/-- The condition at a point of the compilation: the loops of the shape handle their jumps, and
there is room for its own. -/
structure Fits (s : Shape) (c : Compiler) : Prop where
  loops : s.loopsOk c.inLoop c.waits
  room : c.inLoop → ∀ e, (c.openJumps e).length + s.own e ≤ maxPending

/-- The statements that emit a jump. -/
def counted (inLoop : Bool) (own : Exit → ℕ) (e : Exit) : ℕ := if inLoop then own e else 0

theorem counted_add (l : Bool) (f g : Exit → ℕ) :
    counted l (fun e => f e + g e) = fun e => counted l f e + counted l g e := by
  funext e
  cases l <;> simp [counted]

/-- A placeholder that a construct keeps to patch it later. -/
structure Loose (c : Compiler) (j : ℕ) : Prop where
  mem_jumps : j ∈ c.audit.jumps
  fresh : j ∉ c.audit.patched
  apart : ∀ e, j ∉ c.openJumps e

/-- A placeholder of a piece that starts at `c`, or a pending one that it may overwrite. -/
def Located (c : Compiler) (j : ℕ) : Prop := c.code.length < j ∨ ∃ e, j ∈ c.openJumps e

/-- A piece breaks the law. -/
def Breaks (c c' : Compiler) : Prop := ∃ j, Doomed c' j ∧ Located c j

section

variable {loose loose' : List ℕ} {own own' : Exit → ℕ} {uses uses' : Exit → Bool}
  {c c' c'' : Compiler} {o : Opcode} {i j : ℕ}

theorem OpenOk.length_le (h : OpenOk c) (e : Exit) : (c.openJumps e).length ≤ maxPending := by
  rw [← h.live e, Pending.live, List.length_take, h.slots e]
  exact Nat.min_le_right _ _

theorem Frame.inLoop (h : Frame loose own uses c c') : c'.inLoop = c.inLoop := by
  rw [Compiler.inLoop, Compiler.inLoop, h.loopStart]

theorem Frame.length_openJumps (h : Frame loose own uses c c') (e : Exit) :
    (c'.openJumps e).length = (c.openJumps e).length + own e := by
  obtain ⟨js, hjs, hlen, -⟩ := h.openJumps e
  rw [hjs, List.length_append, hlen]

theorem waits_iff {e : Exit} : c.waits e = true ↔ 0 < (c.openJumps e).length := by
  rw [Compiler.waits, Bool.not_eq_true', List.isEmpty_eq_false_iff, List.length_pos_iff]

theorem Frame.waits (h : Frame loose (counted c.inLoop own) uses c c') :
    c'.waits = Shape.after c.inLoop c.waits own := by
  funext e
  rw [Bool.eq_iff_iff, waits_iff, h.length_openJumps, Shape.after, Bool.or_eq_true, waits_iff,
    Bool.and_eq_true, decide_eq_true_iff, counted]
  split
  · next hl => simp only [hl, true_and]; omega
  · next hl => simp only [hl, Bool.false_eq_true, false_and, or_false, Nat.add_zero]

theorem fits_seq {a b : Shape} (h : Frame loose (counted c.inLoop fun e => a.own e) uses c c') :
    Fits (.seq a b) c ↔ Fits a c ∧ Fits b c' := by
  have hlen := h.length_openJumps
  constructor
  · rintro ⟨hloops, hroom⟩
    rw [Shape.loopsOk, Bool.and_eq_true] at hloops
    refine ⟨⟨hloops.1, fun hl e => ?_⟩, ⟨?_, fun hl e => ?_⟩⟩
    · have := hroom hl e
      simp only [Shape.own] at this
      omega
    · rw [h.inLoop, h.waits]
      exact hloops.2
    · rw [h.inLoop] at hl
      have := hroom hl e
      simp only [Shape.own] at this
      rw [hlen e, counted, if_pos hl]
      omega
  · rintro ⟨ha, hb⟩
    refine ⟨?_, fun hl e => ?_⟩
    · have hloops := hb.loops
      rw [h.inLoop, h.waits] at hloops
      rw [Shape.loopsOk, ha.loops, hloops]
      rfl
    · have := hb.room (h.inLoop.trans hl) e
      rw [hlen e, counted, if_pos hl] at this
      simp only [Shape.own]
      omega

/-! ### Loose placeholders -/

theorem Loose.jumped (hc : Core c) (ho : OpenOk c) (o : Opcode) :
    Loose (c.jumped o) (c.code.length + 1) := by
  have hfar : c.code.length + 1 ∉ c.audit.jumps := fun hj => by
    have := (hc.le_length hj).2
    omega
  refine ⟨mem_jumps_jumped c o, fun hp => hfar (hc.mem_jumps _ hp), ?_⟩
  rintro (_ | _) hj
  · exact hfar (ho.mem_jumps .brk _ hj)
  · exact hfar (ho.mem_jumps .cont _ hj)

theorem Loose.lt (h : Loose c j) (hc : Core c) : j + 2 ≤ c.code.length :=
  (hc.le_length h.mem_jumps).2

theorem Loose.frame (h : Loose c j) (hc : Core c) (hf : Frame loose own uses c c') :
    Loose c' j := by
  have hle := h.lt hc
  refine ⟨hf.jumps j h.mem_jumps, fun hp => ?_, fun e he => ?_⟩
  · rcases hf.old j hp with hp | hlt
    · exact h.fresh hp
    · omega
  · obtain ⟨js, hjs, -, hnew⟩ := hf.openJumps e
    rw [hjs] at he
    rcases List.mem_append.1 he with he | he
    · exact h.apart e he
    · have := hnew j he
      omega

theorem Loose.endStep (h : Loose c j) {js : List ℕ} (hs : EndStep js c c') (hjs : j ∉ js) :
    Loose c' j := by
  refine ⟨hs.jumps ▸ h.mem_jumps, fun hp => ?_, fun e he => ?_⟩
  · rw [hs.patched] at hp
    exact (List.mem_append.1 hp).elim h.fresh hjs
  · rw [hs.openJumps] at he
    exact h.apart e he

/-! ### Pieces in order -/

theorem Emitted.refl (hc : Core c) (ho : OpenOk c) :
    Emitted [] (fun _ => 0) (fun _ => false) c c := ⟨hc, ho, Frame.refl c⟩

theorem Emitted.trans (h : Emitted loose own uses c c') (h' : Emitted loose' own' uses' c' c'') :
    Emitted (loose ++ loose') (fun e => own e + own' e) (fun e => uses e || uses' e) c c'' :=
  ⟨h'.core, h'.openOk, h.frame.trans h'.frame⟩

theorem Emitted.mono (h : Emitted loose own uses c c') (hloose : loose = loose')
    (hown : own = own') (huses : uses = uses') : Emitted loose' own' uses' c c' := by
  subst hloose hown huses
  exact h

theorem Emitted.straight (h : Emitted loose own uses c c') (hs : Straight c' c'') :
    Emitted loose own uses c c'' :=
  ⟨h.core.straight hs, h.openOk.straight h.core hs,
    h.frame.endStep (EndStep.straight h.core hs) (fun _ hj => absurd hj List.not_mem_nil)
      fun _ hj => .inr hj⟩

theorem Emitted.jumped (h : Emitted loose own uses c c') (ho : o.isJump) :
    Emitted ((c'.code.length + 1) :: loose) own uses c (c'.jumped o) := by
  obtain ⟨hcore, hopen, hframe⟩ := (h.trans ⟨h.core.jumped ho, h.openOk.jumped o,
    Frame.jumped c' o⟩).mono rfl (by funext e; exact Nat.add_zero _)
      (by funext e; exact Bool.or_false _)
  refine ⟨hcore, hopen, hframe.endStep (EndStep.straight hcore (Straight.refl _))
    (fun _ hj => absurd hj List.not_mem_nil) fun j hj => .inr ?_⟩
  exact List.mem_cons.2 ((List.mem_append.1 hj).symm.imp_left List.mem_singleton.1)

/-- A loose placeholder is patched. -/
theorem Emitted.patchJump (loose' : List ℕ) (h : Emitted loose own uses c c') (hl : Loose c' j)
    (hlt : c.code.length < j) (hloose : ∀ i ∈ loose, i ∈ [j] ∨ i ∈ loose')
    (herr : (exec (patchJump j) c').error = none) :
    Emitted loose' own uses c (exec (Slp.patchJump j) c') ∧
      EndStep [j] c' (exec (Slp.patchJump j) c') := by
  obtain ⟨hcore, hs⟩ := endStep_patchJump h.core hl.mem_jumps hl.fresh herr
  refine ⟨⟨hcore, h.openOk.endStep h.core hs fun e i hi hij => ?_,
    h.frame.endStep hs (fun i hi => ?_) hloose⟩, hs⟩
  · exact hl.apart e (List.mem_singleton.1 hij ▸ hi)
  · rw [List.mem_singleton.1 hi]
    exact hlt

/-! ### Pieces that break the law -/

theorem Located.frame (h : Located c' j) (hf : Frame loose own uses c c') : Located c j := by
  rcases h with hlt | ⟨e, he⟩
  · exact .inl (Nat.lt_of_le_of_lt hf.length_le hlt)
  · obtain ⟨js, hjs, -, hnew⟩ := hf.openJumps e
    rw [hjs] at he
    rcases List.mem_append.1 he with he | he
    · exact .inr ⟨e, he⟩
    · exact .inl (hnew j he)

theorem Located.ne (h : Located c j) (hc : Core c) (hl : Loose c i) : j ≠ i := by
  rintro rfl
  rcases h with hlt | ⟨e, he⟩
  · have := hl.lt hc
    omega
  · exact hl.apart e he

theorem Located.lt_of_enterLoop (h : Located (exec enterLoop c) j) : c.code.length < j := by
  rcases h with hlt | ⟨e, he⟩
  · exact hlt
  · rw [openJumps_enterLoop] at he
    exact absurd he List.not_mem_nil

theorem Doomed.leave {last : Compiler} (h : Doomed last j) (hw : Weak last) (c : Compiler)
    (next : ℕ) : Doomed (c.leave next last) j :=
  h.congr hw ⟨[], (List.append_nil _).symm⟩ (fun _ hj => hj) rfl
    (by rintro (_ | _) he <;> exact he) fun _ hs => List.mem_append_left _ hs

end

/-! ### Loops -/

section

variable {c last : Compiler} {own : Exit → ℕ} {uses : Exit → Bool} {loose js : List ℕ} {j next : ℕ}

/-- The first pending jump is lost when a loop writes over the first slot. -/
theorem doomed_of_overwritten (hc : Core c) (ho : OpenOk c) (hw : Weak c)
    (hframe : Frame [] own uses (exec enterLoop c) last)
    (hkeeps : Keeps [] uses (exec enterLoop c) last) {e : Exit} (hwait : c.waits e)
    (huses : uses e) : ∃ j ∈ c.openJumps e, Doomed (c.leave next last) j := by
  obtain ⟨j, rest, hopen⟩ : ∃ j rest, c.openJumps e = j :: rest := by
    cases h : c.openJumps e with
    | nil => simp [Compiler.waits, h] at hwait
    | cons j rest => exact ⟨j, rest, rfl⟩
  have hj : j ∈ c.openJumps e := hopen ▸ List.mem_cons_self
  have hmem := ho.mem_jumps e j hj
  have hle := (hc.le_length hmem).2
  have hslot : (c.pending e).jumps[0]? = some j := by
    have hlive := congrArg (·[0]?) (ho.live e)
    rw [Pending.live, List.getElem?_take, ho.count e, hopen] at hlive
    simpa using hlive
  have henter : ∀ i, ((exec enterLoop c).pending i).jumps = (c.pending i).jumps := by
    rintro (_ | _) <;> rfl
  have hlen : (exec enterLoop c).code.length = c.code.length := rfl
  refine ⟨j, hj, Doomed.leave (.lost (hkeeps.jumps j hmem) (fun hp => ?_) fun i hi => ?_)
    hkeeps.weak c next⟩
  · rcases hframe.old j hp with hp | hlt
    · exact ho.fresh e j hj hp
    · omega
  · obtain ⟨k, hk⟩ := List.mem_iff_getElem?.1 hi
    rcases hkeeps.slot i k j hk with hold | ⟨hlt, -⟩
    · rw [henter] at hold
      rcases hw.distinct e i 0 k j hslot hold with hzero | ⟨rfl, rfl⟩
      · have := hw.pos j hmem
        omega
      · -- the loop starts with an empty array, so its first jump took the slot
        have := hkeeps.used e huses (Int.natCast_nonneg _) (by cases e <;> rfl) j hk
        omega
    · omega

/-- A loop whose own jumps are in order, seen from the code around it. -/
theorem lawful_leave {b : Compiler} (hc : Core c) (ho : OpenOk c) (hw : Weak c)
    (hb : Emitted loose own uses (exec enterLoop c) b) (hloose : ∀ j ∈ loose, c.code.length < j)
    (hcl : Closing loose next b last js) (hkeeps : Keeps [] uses (exec enterLoop c) last) :
    if Shape.fits c.waits own uses then Emitted [] (fun _ => 0) uses c (c.leave next last)
    else Breaks c (c.leave next last) := by
  have hopen : ∀ e, ∀ j ∈ b.openJumps e, c.code.length < j := by
    intro e j hj
    obtain ⟨ks, hks, -, hnew⟩ := hb.frame.openJumps e
    rw [hks, openJumps_enterLoop] at hj
    exact hnew j hj
  have hframe : Frame [] own uses (exec enterLoop c) last :=
    hb.frame.endStep hcl.endStep (fun j hj => by
      rcases hcl.only j hj with hj | ⟨e, hj⟩
      · exact hloose j hj
      · exact hopen e j hj) fun j hj => .inl (hcl.mem_loose j hj)
  have hown : ∀ e, own e ≤ maxPending := fun e => by
    have hle := hb.openOk.length_le e
    rw [hb.frame.length_openJumps, openJumps_enterLoop] at hle
    simpa using hle
  split
  · rename_i hfits
    refine emitted_leave c.waits hc ho (fun e hne => ?_) hfits hcl.core hframe
      (fun e => ?_) (fun e j hj => ?_) fun e j hj => ?_
    · simpa [Compiler.waits] using hne
    · rw [hcl.endStep.pending]
      exact hb.openOk.slots e
    · rw [hcl.endStep.openJumps] at hj
      rw [hcl.endStep.patched]
      exact List.mem_append_right _ (hcl.mem_open e j hj)
    · rw [hcl.endStep.openJumps] at hj
      exact hcl.routed e j hj
  · rename_i hfits
    obtain ⟨e, hwait, huses⟩ : ∃ e, c.waits e ∧ uses e := by
      by_contra hno
      refine hfits (List.all_eq_true.2 fun e _ => ?_)
      have hboth : (c.waits e && uses e) = false := by
        rw [Bool.eq_false_iff]
        exact fun h => hno ⟨e, by simpa using h⟩
      simp [hboth, hown e]
    obtain ⟨j, hj, hd⟩ := doomed_of_overwritten hc ho hw hframe hkeeps hwait huses
    exact ⟨j, hd, .inr ⟨e, hj⟩⟩

/-- A placeholder that is doomed at the end of the body stays doomed after the loop, unless it is
the exit. -/
theorem Breaks.of_doomed {b : Compiler} {spare : List ℕ} (hd : Doomed b j)
    (hlt : c.code.length < j) (hspare : j ∉ spare) (hkeeps : Keeps spare uses b last) :
    Breaks c (c.leave next last) :=
  ⟨j, (hkeeps.doomed j hd hspare).leave hkeeps.weak c next, .inl hlt⟩

end

/-! ### `continue` statements that leave their loop -/

section

variable {c : Compiler} {js : List ℕ} {i j t : ℕ}

theorem jumpTarget_patchedAll_of_not_mem (hw : Weak c) (hjs : ∀ i ∈ js, i ∈ c.audit.jumps)
    (hj : j ∈ c.audit.jumps) (hnot : j ∉ js) :
    jumpTarget (c.patchedAll t js).code j = jumpTarget c.code j := by
  induction js generalizing c with
  | nil => rfl
  | cons i js ih =>
    rw [List.mem_cons, not_or] at hnot
    rw [Compiler.patchedAll_cons, ih (hw.patched t i)
      (fun k hk => hjs k (List.mem_cons_of_mem i hk)) hj hnot.2]
    rcases hw.apart i (hjs i List.mem_cons_self) j hj with h | h
    · exact absurd h.symm hnot.1
    · rw [Compiler.patched, jumpTarget, jumpTarget, readShort_patchShort_ne (by omega)]

/-- A patched jump has the low sixteen bits of the distance, also of a negative one. -/
theorem jumpTarget_patchedAll (hw : Weak c) (hjs : ∀ i ∈ js, i ∈ c.audit.jumps)
    (hnodup : js.Nodup) (hj : j ∈ js) :
    (jumpTarget (c.patchedAll t js).code j : ℤ) = j + 2 + (t - j - 2) % 65536 := by
  induction js generalizing c with
  | nil => exact absurd hj List.not_mem_nil
  | cons i js ih =>
    obtain ⟨hi, hnd⟩ := List.nodup_cons.1 hnodup
    have hmem := hjs i List.mem_cons_self
    have hrest := fun k hk => hjs k (List.mem_cons_of_mem i hk)
    rcases List.mem_cons.1 hj with rfl | hj
    · rw [Compiler.patchedAll_cons,
        jumpTarget_patchedAll_of_not_mem (hw.patched t j) hrest hmem hi, jumpTarget]
      have hread := readShort_patchShort (v := (t : ℤ) - j - 2)
        (show j + 1 < c.code.length by have := hw.le_length j hmem; omega)
      rw [Compiler.patched]
      push_cast
      omega
    · exact ih (hw.patched t i) hrest hnd hj

/-- A `continue` that jumps to the end of its loop or beyond. -/
theorem Doomed.leave_astray {last : Compiler} {next : ℕ} (hj : j ∈ last.audit.jumps)
    (hp : j ∈ last.audit.patched) (ho : j ∈ last.openJumps .cont)
    (ht : last.code.length ≤ jumpTarget last.code j) : Doomed (c.leave next last) j :=
  .astray hj hp ⟨next, last.code.length⟩ (List.mem_append_right _ (List.mem_map.2 ⟨j, ho, rfl⟩)) ht

/-- A `continue` of a `while` jumps to the end of the loop. -/
theorem doomed_endWhile {b : Compiler} {next : ℕ} (hc : Core b) (ho : OpenOk b) (hl : Loose b j)
    (herr : (exec (endWhile j) b).error = none) (hi : i ∈ b.openJumps .cont) :
    Doomed (c.leave next (exec (endWhile j) b)) i := by
  obtain ⟨-, hs, hsent⟩ := endStep_endWhile hc ho hl.mem_jumps hl.fresh hl.apart herr
  have hi' : i ∈ (exec (endWhile j) b).openJumps .cont := by rwa [hs.openJumps]
  obtain ⟨hp, -, ht⟩ := hsent .cont i hi'
  refine Doomed.leave_astray ?_ hp hi' (Nat.le_of_eq ht.symm)
  rw [hs.jumps]
  exact ho.mem_jumps .cont i hi

/-- A `continue` in the step of a `for` would have to jump backwards; its distance wraps around and
takes it out of the loop. -/
theorem doomed_writeContinues {b : Compiler} {next : ℕ} (hc : Core b) (hw : Weak b)
    (hwait : ∀ e, Waiting b e) (hdis : ∀ i ∈ b.openJumps .brk, i ∉ b.openJumps .cont)
    (herr : (exec patchBreaks (exec (writeContinues next) b)).error = none)
    (hi : i ∈ b.openJumps .cont) (hback : next < i) (hnear : b.code.length ≤ next + 65536) :
    Doomed (c.leave next (exec patchBreaks (exec (writeContinues next) b))) i := by
  have hmem := (hwait .cont).mem_jumps i hi
  have hle := (hc.le_length hmem).2
  have hcont : exec (writeContinues next) b = b.patchedAll next (b.openJumps .cont) := by
    rw [exec_writeContinues]
    exact congrArg _ (hwait .cont).live
  have hbrk : exec patchBreaks (exec (writeContinues next) b) =
      (b.patchedAll next (b.openJumps .cont)).patchedAll b.code.length (b.openJumps .brk) := by
    have heq : exec patchBreaks (exec (writeContinues next) b) = _ := (exec_forM_patchJump herr).1
    rw [heq, hcont, Compiler.length_patchedAll, Compiler.patchedAll_eq b next]
    exact congrArg _ (hwait .brk).live
  have hw' : Weak (b.patchedAll next (b.openJumps .cont)) :=
    hw.congr (Compiler.length_patchedAll b next _) (by rw [Compiler.patchedAll_eq])
      (by rintro (_ | _) <;> rw [Compiler.patchedAll_eq] <;> rfl)
  have htarget : jumpTarget (exec patchBreaks (exec (writeContinues next) b)).code i =
      next + 65536 := by
    rw [hbrk, jumpTarget_patchedAll_of_not_mem hw'
      (fun k hk => by rw [Compiler.patchedAll_eq]; exact (hwait .brk).mem_jumps k hk)
      (by rw [Compiler.patchedAll_eq]; exact hmem) fun hk => hdis i hk hi]
    have hjump := jumpTarget_patchedAll (t := next) hw (hwait .cont).mem_jumps (hwait .cont).nodup hi
    omega
  have hlast : (exec patchBreaks (exec (writeContinues next) b)).code.length = b.code.length := by
    rw [hbrk, Compiler.length_patchedAll, Compiler.length_patchedAll]
  have hopen : (exec patchBreaks (exec (writeContinues next) b)).openJumps .cont =
      b.openJumps .cont := by
    rw [hbrk, Compiler.patchedAll_eq, Compiler.patchedAll_eq b next]
    rfl
  have haudit : (exec patchBreaks (exec (writeContinues next) b)).audit =
      { b.audit with
        patched := b.audit.patched ++ b.openJumps .cont ++ b.openJumps .brk } := by
    rw [hbrk, Compiler.patchedAll_eq, Compiler.patchedAll_eq b next]
  refine Doomed.leave_astray ?_ ?_ (by rwa [hopen]) (by omega)
  · rw [haudit]
    exact hmem
  · rw [haudit]
    exact List.mem_append_left _ (List.mem_append_right _ hi)

end

/-! ### Shapes -/

/-- What a shape does from a compiler whose pending arrays are in order. -/
def Lawful (s : Shape) (c : Compiler) : Prop :=
  (Fits s c ∧ Emitted [] (counted c.inLoop fun e => s.own e) (fun e => s.uses e) c (exec s.emit c)) ∨
    (¬Fits s c ∧ Breaks c (exec s.emit c))

section

variable {c : Compiler} {a b : Shape} {o : Opcode}

theorem lawful_straight {s : Shape} (hc : Core c) (ho : OpenOk c)
    (hs : Straight c (exec s.emit c)) (hown : ∀ e, s.own e = 0) (huses : ∀ e, s.uses e = false)
    (hloops : s.loopsOk c.inLoop c.waits) : Lawful s c := by
  refine .inl ⟨⟨hloops, fun _ e => ?_⟩, ((Emitted.refl hc ho).straight hs).mono rfl ?_ ?_⟩
  · rw [hown]
    exact ho.length_le e
  · funext e
    simp [counted, hown]
  · funext e
    exact (huses e).symm

/-- A piece with the fate of the shape `s`, up to the placeholders in `spare`, which are still to
be patched. -/
structure Contents (s : Shape) (c c' : Compiler) (spare : List ℕ) : Prop where
  keeps : Keeps [] (fun e => s.uses e) c c'
  mem_spare : ∀ i ∈ spare, i ∈ c'.audit.jumps ∧ c.code.length < i
  lawful : (Fits s c ∧ Emitted spare (counted c.inLoop fun e => s.own e) (fun e => s.uses e) c c' ∧
      ∀ i ∈ spare, Loose c' i) ∨
    (¬Fits s c ∧ ∃ j, Doomed c' j ∧ j ∉ spare ∧ Located c j)

namespace Contents

variable {s t : Shape} {c' c'' : Compiler} {spare : List ℕ} {j : ℕ}

theorem of_lawful (hk : Keeps [] (fun e => s.uses e) c (exec s.emit c)) (h : Lawful s c) :
    Contents s c (exec s.emit c) [] :=
  ⟨hk, fun _ hi => absurd hi List.not_mem_nil,
    h.imp (fun ⟨hf, he⟩ => ⟨hf, he, fun _ hi => absurd hi List.not_mem_nil⟩)
      fun ⟨hf, j, hd, hloc⟩ => ⟨hf, j, hd, List.not_mem_nil, hloc⟩⟩

theorem to_lawful (h : Contents s c (exec s.emit c) []) : Lawful s c :=
  h.lawful.imp (fun ⟨hf, he, _⟩ => ⟨hf, he⟩) fun ⟨hf, j, hd, _, hloc⟩ => ⟨hf, j, hd, hloc⟩

theorem skip (hc : Core c) (ho : OpenOk c) (hw : Weak c) : Contents .skip c c [] :=
  of_lawful (s := .skip) (Keeps.refl hw [])
    (lawful_straight hc ho (Straight.refl c) (fun _ => rfl) (fun _ => rfl) rfl)

/-- Nothing before a shape makes no difference. -/
theorem of_skip (h : Contents (.seq .skip s) c c' spare) : Contents s c c' spare := by
  have hafter : Shape.after c.inLoop c.waits (fun e => Shape.skip.own e) = c.waits := by
    funext e
    simp [Shape.after, Shape.own]
  have hiff : Fits (.seq .skip s) c ↔ Fits s c := by
    constructor
    · rintro ⟨hloops, hroom⟩
      refine ⟨?_, fun hl e => by simpa [Shape.own] using hroom hl e⟩
      rwa [Shape.loopsOk, hafter, Shape.loopsOk, Bool.true_and] at hloops
      all_goals simp
    · rintro ⟨hloops, hroom⟩
      refine ⟨?_, fun hl e => by simpa [Shape.own] using hroom hl e⟩
      rw [Shape.loopsOk, hafter, hloops]
      rfl
  refine ⟨h.keeps.mono (by funext e; exact Bool.false_or _), h.mem_spare, ?_⟩
  rcases h.lawful with ⟨hf, he, hl⟩ | ⟨hf, hd⟩
  · exact .inl ⟨hiff.1 hf, he.mono rfl (by funext e; simp [counted, Shape.own])
      (by funext e; exact Bool.false_or _), hl⟩
  · exact .inr ⟨fun hf' => hf (hiff.2 hf'), hd⟩

/-- A jump whose placeholder is patched later. -/
theorem jumped (h : Contents s c c' spare) (ho : o.isJump) :
    Contents s c (c'.jumped o) ((c'.code.length + 1) :: spare) := by
  have hkeeps := h.keeps.jumped o
  refine ⟨hkeeps, fun i hi => ?_, h.lawful.imp (fun ⟨hf, he, hl⟩ => ⟨hf, ?_, fun i hi => ?_⟩)
    fun ⟨hf, j, hd, hj, hloc⟩ => ⟨hf, j, ?_, ?_, hloc⟩⟩
  · rcases List.mem_cons.1 hi with rfl | hi
    · exact ⟨mem_jumps_jumped c' o, Nat.lt_succ_of_le h.keeps.length⟩
    · exact ⟨List.mem_append_left _ (h.mem_spare i hi).1, (h.mem_spare i hi).2⟩
  · exact he.jumped ho
  · rcases List.mem_cons.1 hi with rfl | hi
    · exact Loose.jumped he.core he.openOk o
    · exact (hl i hi).frame he.core (Frame.jumped c' o)
  · exact ((Keeps.refl h.keeps.weak []).jumped o).doomed j hd List.not_mem_nil
  · -- what is doomed was emitted before
    have hle := h.keeps.weak.le_length j hd.mem_jumps
    rw [List.mem_cons, not_or]
    exact ⟨by omega, hj⟩

theorem straight (h : Contents s c c' spare) (hs : Straight c' c'') : Contents s c c'' spare := by
  refine ⟨h.keeps.straight hs, fun i hi => ⟨hs.audit ▸ (h.mem_spare i hi).1, (h.mem_spare i hi).2⟩,
    h.lawful.imp (fun ⟨hf, he, hl⟩ => ⟨hf, he.straight hs, fun i hi => ?_⟩)
      fun ⟨hf, j, hd, hj, hloc⟩ => ⟨hf, j, ?_, hj, hloc⟩⟩
  · exact (hl i hi).endStep (EndStep.straight he.core hs) List.not_mem_nil
  · exact ((Keeps.refl h.keeps.weak []).straight hs).doomed j hd List.not_mem_nil

/-- One of the placeholders is patched. -/
theorem patchJump (spare' : List ℕ) (h : Contents s c c' spare) (hj : j ∈ spare)
    (hspare : ∀ i ∈ spare', i ∈ spare ∧ i ≠ j) (hrest : ∀ i ∈ spare, i = j ∨ i ∈ spare')
    (hw : Weak c) (herr : (exec (patchJump j) c').error = none) :
    Contents s c (exec (Slp.patchJump j) c') spare' := by
  obtain ⟨hmem, hlt⟩ := h.mem_spare j hj
  have hkeeps := h.keeps.patchJump hw hmem (.inr hlt) herr
  have hstep := (Keeps.refl h.keeps.weak [j]).patchJump h.keeps.weak hmem
    (.inl (List.mem_singleton_self j)) herr
  refine ⟨hkeeps, fun i hi => ?_, ?_⟩
  · obtain ⟨hi, -⟩ := hspare i hi
    exact ⟨hstep.jumps i (h.mem_spare i hi).1, (h.mem_spare i hi).2⟩
  · rcases h.lawful with ⟨hf, he, hl⟩ | ⟨hf, k, hd, hk, hloc⟩
    · obtain ⟨hep, hs⟩ := he.patchJump spare' (hl j hj) hlt
        (fun i hi => (hrest i hi).imp_left List.mem_singleton.2) herr
      refine .inl ⟨hf, hep, fun i hi => (hl i (hspare i hi).1).endStep hs ?_⟩
      rw [List.mem_singleton]
      exact (hspare i hi).2
    · refine .inr ⟨hf, k, hstep.doomed k hd ?_, fun hk' => hk (hspare k hk').1, hloc⟩
      rw [List.mem_singleton]
      rintro rfl
      exact hk hj

/-- The next shape. -/
theorem seq (h : Contents s c c' spare)
    (ht : Core c' → OpenOk c' → Weak c' → Lawful t c') (herr : (exec t.emit c').error = none) :
    Contents (.seq s t) c (exec t.emit c') spare := by
  have hkeeps := keeps_emit t h.keeps.weak herr
  refine ⟨h.keeps.trans hkeeps, fun i hi => ⟨hkeeps.jumps i (h.mem_spare i hi).1, (h.mem_spare i hi).2⟩, ?_⟩
  rcases h.lawful with ⟨hf, he, hl⟩ | ⟨hf, j, hd, hj, hloc⟩
  · have hiff := fits_seq (b := t) he.frame
    rcases ht he.core he.openOk h.keeps.weak with ⟨hft, het⟩ | ⟨hft, j, hd, hloc⟩
    · refine .inl ⟨hiff.2 ⟨hf, hft⟩, (he.trans het).mono (List.append_nil _) ?_ rfl,
        fun i hi => (hl i hi).frame he.core het.frame⟩
      rw [he.frame.inLoop]
      exact (counted_add _ _ _).symm
    · refine .inr ⟨fun hf' => hft (hiff.1 hf').2, j, hd, fun hj => ?_, hloc.frame he.frame⟩
      exact hloc.ne he.core (hl j hj) rfl
  · refine .inr ⟨fun hf' => hf ⟨?_, fun hl e => ?_⟩, j, hkeeps.doomed j hd List.not_mem_nil, hj, hloc⟩
    · have hloops := hf'.loops
      rw [Shape.loopsOk, Bool.and_eq_true] at hloops
      exact hloops.1
    · have hroom := hf'.room hl e
      simp only [Shape.own] at hroom
      omega

end Contents

theorem lawful_guard (h : o.isJump) (hc : Core c) (ho : OpenOk c) (hw : Weak c)
    (herr : (exec (Shape.guard o h a).emit c).error = none)
    (ha : ∀ c', Core c' → OpenOk c' → Weak c' → (exec a.emit c').error = none → Lawful a c') :
    Lawful (.guard o h a) c := by
  rw [exec_guard] at herr
  have herra := error_of_patchJump herr
  have hin := (((Contents.skip hc ho hw).jumped h).seq
    (fun hc ho hw => ha _ hc ho hw herra) herra).of_skip
  have hall := hin.patchJump [] (List.mem_singleton_self _) (fun _ hi => absurd hi List.not_mem_nil)
    (fun i hi => .inl (List.mem_singleton.1 hi)) hw herr
  -- a guarded piece counts as the piece itself
  rw [← exec_guard c o h a] at hall
  exact Contents.to_lawful ⟨hall.keeps, hall.mem_spare, hall.lawful.imp
    (fun ⟨hf, he⟩ => ⟨⟨hf.loops, hf.room⟩, he⟩) fun ⟨hf, hd⟩ => ⟨fun hf' => hf ⟨hf'.loops, hf'.room⟩, hd⟩⟩

theorem lawful_branch (h : o.isJump) (hc : Core c) (ho : OpenOk c) (hw : Weak c)
    (herr : (exec (Shape.branch o h a b).emit c).error = none)
    (ha : ∀ c', Core c' → OpenOk c' → Weak c' → (exec a.emit c').error = none → Lawful a c')
    (hb : ∀ c', Core c' → OpenOk c' → Weak c' → (exec b.emit c').error = none → Lawful b c') :
    Lawful (.branch o h a b) c := by
  rw [exec_branch] at herr
  have herrb := error_of_patchJump herr
  have herrj := error_of_emit b herrb
  have herra := error_of_patchJump herrj
  rw [error_jumped] at herra
  have hina := (((Contents.skip hc ho hw).jumped h).seq
    (fun hc ho hw => ha _ hc ho hw herra) herra).of_skip
  have hlen := (keeps_emit a (hw.jumped o) herra).length
  rw [Compiler.length_jumped] at hlen
  have hinj := (hina.jumped (o := .jump) rfl).patchJump
    [(exec a.emit (c.jumped o)).code.length + 1] (List.mem_cons_of_mem _ (List.mem_singleton_self _))
    (fun i hi => ⟨List.mem_cons.2 (.inl (List.mem_singleton.1 hi)), by
      have := List.mem_singleton.1 hi
      omega⟩)
    (fun i hi => by
      rcases List.mem_cons.1 hi with rfl | hi
      · exact .inr (List.mem_singleton_self _)
      · exact .inl (List.mem_singleton.1 hi)) hw herrj
  have hinb := hinj.seq (fun hc ho hw => hb _ hc ho hw herrb) herrb
  have hall := hinb.patchJump [] (List.mem_singleton_self _)
    (fun _ hi => absurd hi List.not_mem_nil) (fun i hi => .inl (List.mem_singleton.1 hi)) hw herr
  rw [← exec_branch c o h a b] at hall
  exact Contents.to_lawful ⟨hall.keeps, hall.mem_spare, hall.lawful.imp
    (fun ⟨hf, he⟩ => ⟨⟨hf.loops, hf.room⟩, he⟩) fun ⟨hf, hd⟩ => ⟨fun hf' => hf ⟨hf'.loops, hf'.room⟩, hd⟩⟩

end

/-! ### The kinds of loops -/

section

variable {c b last : Compiler} {s t : Shape} {spare js : List ℕ} {g : Prop} {next j : ℕ}

theorem Contents.emitted (h : Contents s c b spare) (hf : Fits s c) :
    Emitted spare (counted c.inLoop fun e => s.own e) (fun e => s.uses e) c b ∧
      ∀ i ∈ spare, Loose b i := by
  rcases h.lawful with ⟨-, he⟩ | ⟨hnot, -⟩
  · exact he
  · exact absurd hf hnot

theorem Lawful.emitted (h : Lawful s c) (hf : Fits s c) :
    Emitted [] (counted c.inLoop fun e => s.own e) (fun e => s.uses e) c (exec s.emit c) := by
  rcases h with ⟨-, he⟩ | ⟨hnot, -⟩
  · exact he
  · exact absurd hf hnot

/-- A loop `t` with the contents `s` fits if the pending jumps around it are spared, its contents
fit and `g` holds of them. -/
theorem fits_loop (ho : OpenOk c) (hown : ∀ e, t.own e = 0)
    (hloops : t.loopsOk c.inLoop c.waits ↔
      Shape.fits c.waits (fun e => s.own e) (fun e => s.uses e) ∧ g ∧
        s.loopsOk true (fun _ => false)) :
    Fits t c ↔ Shape.fits c.waits (fun e => s.own e) (fun e => s.uses e) ∧ g ∧
      Fits s (exec enterLoop c) := by
  have hwaits : (exec enterLoop c).waits = fun _ => false := by
    funext e
    rw [Compiler.waits, openJumps_enterLoop]
    rfl
  have hin : (exec enterLoop c).inLoop = true := by
    simp [Compiler.inLoop, enterLoop]
  constructor
  · rintro ⟨hl, -⟩
    obtain ⟨hfits, hg, hs⟩ := hloops.1 hl
    refine ⟨hfits, hg, ⟨by rw [hin, hwaits]; exact hs, fun _ e => ?_⟩⟩
    have hall := List.all_eq_true.1 hfits e (by cases e <;> simp)
    rw [openJumps_enterLoop]
    simp only [Bool.and_eq_true, decide_eq_true_eq] at hall
    simpa using hall.2
  · rintro ⟨hfits, hg, hs⟩
    have hsl := hs.loops
    rw [hin, hwaits] at hsl
    refine ⟨hloops.2 ⟨hfits, hg, hsl⟩, fun _ e => ?_⟩
    rw [hown]
    exact ho.length_le e

/-- A loop whose end `last` either closes it or sends a `continue` astray. -/
theorem lawful_loop (next : ℕ) (hc : Core c) (ho : OpenOk c) (hw : Weak c)
    (hfits : Fits t c ↔ Shape.fits c.waits (fun e => s.own e) (fun e => s.uses e) ∧ g ∧
      Fits s (exec enterLoop c))
    (hcon : Contents s (exec enterLoop c) b spare)
    (hkeeps : Keeps [] (fun e => s.uses e) (exec enterLoop c) last)
    (hspare : Keeps spare (fun _ => false) b last)
    (hend : Fits s (exec enterLoop c) → (g ∧ ∃ js, Closing spare next b last js) ∨
      (¬g ∧ ∃ j, Doomed (c.leave next last) j ∧ c.code.length < j)) :
    (Fits t c ∧ Emitted [] (fun _ => 0) (fun e => s.uses e) c (c.leave next last)) ∨
      (¬Fits t c ∧ Breaks c (c.leave next last)) := by
  rw [hfits]
  rcases hcon.lawful with ⟨hs, he, -⟩ | ⟨hs, j, hd, hj, hloc⟩
  · rcases hend hs with ⟨hg, js, hcl⟩ | ⟨hg, j, hd, hlt⟩
    · have hleave := lawful_leave hc ho hw he (fun i hi => (hcon.mem_spare i hi).2) hcl hkeeps
      have hown : counted (exec enterLoop c).inLoop (fun e => s.own e) = fun e => s.own e := by
        funext e
        simp [counted, Compiler.inLoop, enterLoop]
      rw [hown] at hleave
      split at hleave
      · exact .inl ⟨⟨‹_›, hg, hs⟩, hleave⟩
      · exact .inr ⟨fun h => absurd h.1 ‹_›, hleave⟩
    · exact .inr ⟨fun h => hg h.2.1, j, hd, .inl hlt⟩
  · exact .inr ⟨fun h => hs h.2.2,
      Breaks.of_doomed hd hloc.lt_of_enterLoop hj hspare⟩

theorem openJumps_contents (he : Emitted spare (counted (exec enterLoop c).inLoop fun e => s.own e)
    (fun e => s.uses e) (exec enterLoop c) b) (e : Exit) :
    (b.openJumps e).length = s.own e ∧ ∀ i ∈ b.openJumps e, c.code.length < i := by
  obtain ⟨js, hjs, hlen, hnew⟩ := he.frame.openJumps e
  rw [openJumps_enterLoop, List.nil_append] at hjs
  rw [hjs, hlen]
  refine ⟨?_, hnew⟩
  simp [counted, Compiler.inLoop, enterLoop]

/-- The body of a loop that is closed without an error is short. -/
theorem length_emitLoop {l : ℕ} (hl : b.loopStart = l)
    (herr : (exec (emitLoop b.loopStart) b).error = none) :
    b.code.length + 3 ≤ l + 32767 ∧
      (exec (emitLoop b.loopStart) b).code.length = b.code.length + 3 := by
  rw [hl] at herr ⊢
  obtain ⟨x, y, heq, hle, -⟩ := emitLoop_ok herr
  refine ⟨hle, ?_⟩
  rw [heq]
  simp

/-- A `while` fits if it has no `continue` of its own. -/
theorem ends_while (he : Emitted [j] (counted (exec enterLoop c).inLoop fun e => s.own e)
    (fun e => s.uses e) (exec enterLoop c) b) (hl : Loose b j)
    (herr : (exec (endWhile j) b).error = none) :
    (s.own .cont = 0 ∧ ∃ js, Closing [j] next b (exec (endWhile j) b) js) ∨
      (s.own .cont ≠ 0 ∧
        ∃ i, Doomed (c.leave next (exec (endWhile j) b)) i ∧ c.code.length < i) := by
  obtain ⟨hlen, hnew⟩ := openJumps_contents he .cont
  by_cases hown : s.own .cont = 0
  · refine .inl ⟨hown, closing_endWhile he.core he.openOk hl.mem_jumps hl.fresh hl.apart ?_ herr⟩
    rw [← List.length_eq_zero_iff, hlen, hown]
  · obtain ⟨i, hi⟩ := List.exists_mem_of_length_pos (by omega : 0 < (b.openJumps .cont).length)
    exact .inr ⟨hown, i, doomed_endWhile he.core he.openOk hl herr hi, hnew i hi⟩

/-- The state between the body `a` and the end `b` of the step of a `for`. -/
structure Stepped (c a b : Compiler) (step : Shape) : Prop where
  start : b.loopStart = c.code.length
  core : Core a
  openOk : OpenOk a
  from_body : ∀ i ∈ a.openJumps .cont, c.code.length < i
  frame : Frame [] (counted a.inLoop fun e => step.own e) (fun e => step.uses e) a b
  inLoop : a.inLoop

theorem stepped {a step : Shape} {m : Compiler}
    (ha : Contents a (exec enterLoop c) m spare) (hs : Core m → OpenOk m → Lawful step m)
    (hf : Fits (.seq a step) (exec enterLoop c)) : Stepped c m (exec step.emit m) step := by
  have hfa : Fits a (exec enterLoop c) := by
    rcases ha.lawful with ⟨hfa, -⟩ | ⟨hnot, -⟩
    · exact hfa
    · refine absurd ⟨?_, fun hl e => ?_⟩ hnot
      · have hloops := hf.loops
        rw [Shape.loopsOk, Bool.and_eq_true] at hloops
        exact hloops.1
      · have hroom := hf.room hl e
        simp only [Shape.own] at hroom
        omega
  obtain ⟨hea, -⟩ := ha.emitted hfa
  have hes := (hs hea.core hea.openOk).emitted ((fits_seq hea.frame).1 hf).2
  have hin : m.inLoop = true := by
    rw [hea.frame.inLoop]
    simp [Compiler.inLoop, enterLoop]
  exact ⟨hes.frame.loopStart.trans hea.frame.loopStart, hea.core, hea.openOk,
    (openJumps_contents hea .cont).2, hes.frame, hin⟩

namespace Stepped

variable {a : Compiler} {step : Shape}

theorem boundary (h : Stepped c a b step) : Boundary b.code a.code.length := by
  rw [← List.take_append_drop a.code.length b.code, h.frame.take]
  exact h.core.boundary.append _

/-- Without a `continue` in the step all of them are before it. -/
theorem reach (h : Stepped c a b step) (hown : step.own .cont = 0)
    (herr : (exec (emitLoop b.loopStart) b).error = none) :
    ∀ i ∈ b.openJumps .cont, i + 2 ≤ a.code.length ∧ a.code.length ≤ i + 2 + 65535 := by
  intro i hi
  obtain ⟨js, hjs, hlen, -⟩ := h.frame.openJumps .cont
  simp only [counted, h.inLoop, hown, if_true, List.length_eq_zero_iff] at hlen
  rw [hjs, hlen, List.append_nil] at hi
  have hlt := h.from_body i hi
  have hle := h.frame.length_le
  have hreach := (length_emitLoop h.start herr).1
  exact ⟨(h.core.le_length (h.openOk.mem_jumps .cont i hi)).2, by omega⟩

/-- A `continue` in the step is behind its start. -/
theorem exists_behind (h : Stepped c a b step) (hown : step.own .cont ≠ 0) :
    ∃ i ∈ b.openJumps .cont, a.code.length < i := by
  obtain ⟨js, hjs, hlen, hnew⟩ := h.frame.openJumps .cont
  simp only [counted, h.inLoop, if_true] at hlen
  obtain ⟨i, hi⟩ := List.exists_mem_of_length_pos (by omega : 0 < js.length)
  exact ⟨i, hjs ▸ List.mem_append_right _ hi, hnew i hi⟩

end Stepped

/-- A `for` fits if its step has no `continue`. -/
theorem ends_for {a m : Compiler} {step : Shape} (h : Stepped c a b step) (hb : Core b)
    (ho : OpenOk b) {loose : List ℕ} (hm : Core m) (hs : EndStep loose b m)
    (hwm : Weak m) (hlo : ∀ e, ∀ j ∈ b.openJumps e, j ∉ loose)
    (hloop : (exec (emitLoop b.loopStart) b).error = none)
    (hlt : b.code.length < m.code.length) (hnear : m.code.length ≤ b.code.length + 4)
    (hle : c.code.length ≤ a.code.length)
    (herr : (exec patchBreaks (exec (writeContinues a.code.length) m)).error = none) :
    (step.own .cont = 0 ∧ ∃ js, Closing loose a.code.length b
        (exec patchBreaks (exec (writeContinues a.code.length) m)) js) ∨
      (step.own .cont ≠ 0 ∧ ∃ i, Doomed (c.leave a.code.length
        (exec patchBreaks (exec (writeContinues a.code.length) m))) i ∧ c.code.length < i) := by
  by_cases hown : step.own .cont = 0
  · have hlen := h.frame.length_le
    exact .inl ⟨hown, closing_for hb ho hm hs hlo h.boundary (by omega) (h.reach hown hloop) herr⟩
  · obtain ⟨i, hi, hback⟩ := h.exists_behind hown
    have hreach := (length_emitLoop h.start hloop).1
    have hwait : ∀ e, Waiting m e := fun e => (ho.waiting e).endStep hb hs (hlo e)
    refine .inr ⟨hown, i, doomed_writeContinues hm hwm hwait (fun k hk hk' => ?_) herr
      (by rwa [hs.openJumps]) hback (by omega), by omega⟩
    rw [hs.openJumps] at hk hk'
    exact disjoint_openJumps ho hk hk'

theorem ends_endFor {a : Compiler} {step : Shape} (h : Stepped c a b step) (hb : Core b)
    (ho : OpenOk b) (hw : Weak b) (hl : Loose b j) (hle : c.code.length ≤ a.code.length)
    (herr : (exec (endFor j a.code.length) b).error = none) :
    (step.own .cont = 0 ∧
        ∃ js, Closing [j] a.code.length b (exec (endFor j a.code.length) b) js) ∨
      (step.own .cont ≠ 0 ∧ ∃ i, Doomed (c.leave a.code.length
        (exec (endFor j a.code.length) b)) i ∧ c.code.length < i) := by
  rw [exec_endFor] at herr ⊢
  have herrp := error_of_patchBreaks herr
  rw [error_writeContinues, error_emitOp] at herrp
  have hloop := error_of_patchJump herrp
  obtain ⟨hc₁, hs₁⟩ := endStep_exit hb hl.mem_jumps hl.fresh herrp
  obtain ⟨hc₂, hs₂⟩ := endStep_pop hc₁
  have hw₂ := ((Keeps.refl hw [j]).exit hw hl.mem_jumps (.inl (List.mem_singleton_self j))
    herrp).weak
  have hlen : (exec (patchJump j) (exec (emitLoop b.loopStart) b)).code.length =
      b.code.length + 3 := by
    rw [(patchJump_ok herrp).1, Compiler.length_patched, (length_emitLoop h.start hloop).2]
  have hlen₂ : (exec (emitOp .pop)
      (exec (patchJump j) (exec (emitLoop b.loopStart) b))).code.length = b.code.length + 4 := by
    rw [exec_emitOp, List.length_append, hlen, List.length_singleton]
  exact ends_for h hb ho hc₂ (hs₁.trans hs₂) hw₂
    (fun e i hi hij => hl.apart e (List.mem_singleton.1 hij ▸ hi)) hloop (by omega) (by omega) hle herr

end

/-- A loop as a shape; `last` is the compiler before the loop is left. -/
theorem lawful_of_loop {c last : Compiler} {s t : Shape} (next : ℕ)
    (h : (Fits t c ∧ Emitted [] (fun _ => 0) (fun e => s.uses e) c (c.leave next last)) ∨
      (¬Fits t c ∧ Breaks c (c.leave next last)))
    (hown : ∀ e, t.own e = 0) (huses : ∀ e, t.uses e = s.uses e)
    (hexec : Straight (c.leave next last) (exec t.emit c))
    (hweak : Weak (c.leave next last)) : Lawful t c := by
  refine h.imp (fun ⟨hf, he⟩ => ⟨hf, (he.straight hexec).mono rfl ?_ ?_⟩) fun ⟨hf, j, hd, hloc⟩ =>
    ⟨hf, j, ((Keeps.refl hweak []).straight hexec).doomed j hd List.not_mem_nil, hloc⟩
  · funext e
    simp [counted, hown]
  · funext e
    exact (huses e).symm

theorem lawful_inTry {a : Shape} {c : Compiler} (hc : Core c) (ho : OpenOk c) (hw : Weak c)
    (herr : (exec (Shape.inTry a).emit c).error = none)
    (ha : ∀ c', Core c' → OpenOk c' → Weak c' → (exec a.emit c').error = none → Lawful a c') :
    Lawful (.inTry a) c := by
  rw [exec_inTry] at herr
  have hin := (((Contents.skip hc ho hw).straight
    (straight_tryDepth c (c.tryDepth + 1))).seq (fun hc ho hw => ha _ hc ho hw herr) herr).of_skip
  have hall := hin.straight (straight_tryDepth _
    ((exec a.emit { c with tryDepth := c.tryDepth + 1 }).tryDepth - 1))
  rw [← exec_inTry] at hall
  exact Contents.to_lawful ⟨hall.keeps, hall.mem_spare, hall.lawful.imp
    (fun ⟨hf, he⟩ => ⟨⟨hf.loops, hf.room⟩, he⟩) fun ⟨hf, hd⟩ => ⟨fun hf' => hf ⟨hf'.loops, hf'.room⟩, hd⟩⟩

/-- A `break` or `continue` is dropped when the array is full. -/
theorem lawful_exit {c : Compiler} {s : Shape} {e : Exit} (hc : Core c) (ho : OpenOk c)
    (hw : Weak c) (hexec : exec s.emit c = if 0 ≤ c.loopStart then exec (emitExit e) c else c)
    (hown : ∀ i, s.own i = if e = i then 1 else 0) (huses : ∀ i, s.uses i = decide (e = i))
    (hloops : s.loopsOk c.inLoop c.waits) : Lawful s c := by
  rw [Lawful, hexec]
  by_cases hl : 0 ≤ c.loopStart
  · have hin : c.inLoop = true := by simpa [Compiler.inLoop] using hl
    have hpop := (Emitted.refl hc ho).straight (straight_popHandlers c)
    have hwp := ((Keeps.refl hw []).straight (straight_popHandlers c)).weak
    have hcount := hpop.frame.length_openJumps e
    rw [if_pos hl, exec_emitExit]
    by_cases hroom : (c.openJumps e).length < maxPending
    · have hopen : Emitted [] (fun i => if e = i then 1 else 0) (fun i => e = i) (exec popHandlers c)
          (((exec popHandlers c).jumped .jump).opened ((exec popHandlers c).code.length + 1) e) :=
        ⟨(hpop.core.jumped rfl).opened _ e, hpop.openOk.opened hpop.core (by omega),
          Frame.opened _ e⟩
      refine .inl ⟨⟨hloops, fun _ i => ?_⟩, (hpop.trans hopen).mono rfl ?_ ?_⟩
      · rw [hown]
        split
        · rename_i hi
          exact hi ▸ hroom
        · exact ho.length_le i
      · funext i
        simp [counted, hin, hown]
      · funext i
        simp [huses]
    · refine .inr ⟨fun hf => ?_, (exec popHandlers c).code.length + 1, .lost ?_ ?_ fun i hi => ?_,
        .inl (Nat.lt_succ_of_le hpop.frame.length_le)⟩
      · have := hf.room hin e
        rw [hown, if_pos rfl] at this
        omega
      · rw [Compiler.opened_jumps]
        exact mem_jumps_jumped _ .jump
      · rw [Compiler.opened_patched]
        exact (Loose.jumped hpop.core hpop.openOk .jump).fresh
      · -- the array is full, so the jump is in no slot
        have hfull : ¬((exec popHandlers c).pending e).count < maxPending := by
          rw [hpop.openOk.count e]
          omega
        rw [Compiler.opened_pending] at hi
        have hslot : (exec popHandlers c).code.length + 1 ∈ ((exec popHandlers c).pending i).jumps := by
          split at hi
          · rename_i h
            subst h
            have hrec : ((exec popHandlers c).pending e).record ((exec popHandlers c).code.length + 1)
                = (exec popHandlers c).pending e := if_neg hfull
            have hsame : ((exec popHandlers c).jumped .jump).pending e =
                (exec popHandlers c).pending e := by cases e <;> rfl
            rwa [hsame, hrec] at hi
          · cases i <;> exact hi
        have := hwp.bound i _ hslot
        omega
  · have hin : c.inLoop = false := by simpa [Compiler.inLoop] using hl
    rw [if_neg hl]
    refine .inl ⟨⟨hloops, fun h => absurd h (by simp [hin])⟩, hc, ho, ?_⟩
    have hframe := Frame.refl c
    exact ⟨hframe.take, rfl, hframe.jumps, hframe.new, hframe.patched, hframe.old,
      fun i => ⟨[], by simp [counted, hin]⟩, fun _ _ => rfl⟩

/-- A shape from a compiler whose pending arrays are in order: if it fits, they are in order
afterwards and its jumps are patched and routed; otherwise it breaks the law. -/
theorem emit_lawful (s : Shape) {c : Compiler} (hc : Core c) (ho : OpenOk c) (hw : Weak c)
    (herr : (exec s.emit c).error = none) : Lawful s c := by
  induction s generalizing c with
  | seq a b iha ihb =>
    have ha := Contents.of_lawful (keeps_emit a hw (error_of_emit b herr))
      (iha hc ho hw (error_of_emit b herr))
    exact (ha.seq (fun hc ho hw => ihb hc ho hw herr) herr).to_lawful
  | guard o h a ih =>
    exact lawful_guard h hc ho hw herr fun c' hc ho hw herr => ih hc ho hw herr
  | branch o h a b iha ihb =>
    exact lawful_branch h hc ho hw herr (fun c' hc ho hw herr => iha hc ho hw herr)
      fun c' hc ho hw herr => ihb hc ho hw herr
  | inTry a ih => exact lawful_inTry hc ho hw herr fun c' hc ho hw herr => ih hc ho hw herr
  | brk =>
    exact lawful_exit (e := .brk) hc ho hw (exec_brk c) (by rintro (_ | _) <;> rfl)
      (by rintro (_ | _) <;> rfl) rfl
  | cont =>
    exact lawful_exit (e := .cont) hc ho hw (exec_cont c) (by rintro (_ | _) <;> rfl)
      (by rintro (_ | _) <;> rfl) rfl
  | whileLoop o h head body ihh ihb =>
    rw [exec_whileLoop, error_leave] at herr
    have herrb := error_of_endWhile herr
    have herrh := error_of_emit body herrb
    rw [error_emitOp, error_jumped] at herrh
    have hhead := Contents.of_lawful (keeps_emit head hw.enterLoop herrh)
      (ihh hc.enterLoop ho.enterLoop hw.enterLoop herrh)
    have hcon := ((hhead.jumped h).straight (straight_emitOp .pop rfl _)).seq
      (fun hc ho hw => ihb hc ho hw herrb) herrb
    obtain ⟨hmem, hlt⟩ := hcon.mem_spare _ (List.mem_singleton_self _)
    have hkeeps := hcon.keeps.endWhile hw.enterLoop hmem (.inr hlt) herr
    have hall := lawful_loop (t := .whileLoop o h head body) c.code.length hc ho hw
      (fits_loop (g := (Shape.seq head body).own .cont = 0) ho (fun _ => rfl) (by
        simp only [Shape.loopsOk, Shape.own, Shape.uses, Bool.and_eq_true, decide_eq_true_eq,
          and_assoc])) hcon hkeeps
      ((Keeps.refl hcon.keeps.weak _).endWhile hcon.keeps.weak hmem
        (.inl (List.mem_singleton_self _)) herr)
      fun hf => by
        obtain ⟨he, hl⟩ := hcon.emitted hf
        exact ends_while he (hl _ (List.mem_singleton_self _)) herr
    refine lawful_of_loop _ hall (fun _ => rfl) (fun _ => rfl) ?_ (hkeeps.leave hw _).weak
    rw [exec_whileLoop]
    exact Straight.refl _
  | forLoop head body step ihh ihb ihs =>
    rw [exec_forLoop, error_leave] at herr
    have herrs := error_of_endFor herr
    have herrb := error_of_emit step herrs
    have herrh := error_of_emit body herrb
    rw [error_emitOp, error_jumped] at herrh
    have hhead := Contents.of_lawful (keeps_emit head hw.enterLoop herrh)
      (ihh hc.enterLoop ho.enterLoop hw.enterLoop herrh)
    have hbody := ((hhead.jumped (o := .jumpIfFalse) rfl).straight (straight_emitOp .pop rfl _)).seq
      (fun hc ho hw => ihb hc ho hw herrb) herrb
    have hcon := hbody.seq (fun hc ho hw => ihs hc ho hw herrs) herrs
    obtain ⟨hmem, hlt⟩ := hcon.mem_spare _ (List.mem_singleton_self _)
    have hkeeps := hcon.keeps.endFor hw.enterLoop hmem (.inr hlt) herr
    have hall := lawful_loop (t := .forLoop head body step) _ hc ho hw
      (fits_loop (g := step.own .cont = 0) ho (fun _ => rfl) (by
        simp only [Shape.loopsOk, Shape.own, Shape.uses, Bool.and_eq_true, decide_eq_true_eq,
          and_assoc])) hcon hkeeps
      ((Keeps.refl hcon.keeps.weak _).endFor hcon.keeps.weak hmem
        (.inl (List.mem_singleton_self _)) herr)
      fun hf => by
        obtain ⟨he, hl⟩ := hcon.emitted hf
        have hl := hl _ (List.mem_singleton_self _)
        exact ends_endFor (stepped hbody (fun hc ho => ihs hc ho hbody.keeps.weak herrs) hf)
          he.core he.openOk hcon.keeps.weak hl hbody.keeps.length herr
    refine lawful_of_loop _ hall (fun _ => rfl) (fun _ => rfl) ?_ (hkeeps.leave hw _).weak
    rw [exec_forLoop]
    exact Straight.refl _
  | foreverLoop body step ihb ihs =>
    rw [exec_foreverLoop, error_leave] at herr
    have herrs := error_of_endForever herr
    have herrb := error_of_emit step herrs
    have hbody := Contents.of_lawful (keeps_emit body hw.enterLoop herrb)
      (ihb hc.enterLoop ho.enterLoop hw.enterLoop herrb)
    have hcon := hbody.seq (fun hc ho hw => ihs hc ho hw herrs) herrs
    have hkeeps := hcon.keeps.endForever hw.enterLoop herr
    have hall := lawful_loop (t := .foreverLoop body step) _ hc ho hw
      (fits_loop (g := step.own .cont = 0) ho (fun _ => rfl) (by
        simp only [Shape.loopsOk, Shape.own, Shape.uses, Bool.and_eq_true, decide_eq_true_eq,
          and_assoc])) hcon hkeeps
      ((Keeps.refl hcon.keeps.weak _).endForever hcon.keeps.weak herr)
      fun hf => by
        obtain ⟨he, -⟩ := hcon.emitted hf
        rw [exec_endForever] at herr ⊢
        have hloop := error_of_patchBreaks herr
        rw [error_writeContinues] at hloop
        have hstep := stepped hbody (fun hc ho => ihs hc ho hbody.keeps.weak herrs) hf
        have hlen := (length_emitLoop hstep.start hloop).2
        have hs := straight_emitLoop hloop
        exact ends_for hstep he.core he.openOk (he.core.straight hs) (EndStep.straight he.core hs)
          (hcon.keeps.straight hs).weak (fun _ _ _ => List.not_mem_nil) hloop (by omega) (by omega)
          hbody.keeps.length herr
    refine lawful_of_loop _ hall (fun _ => rfl) (fun _ => rfl) ?_ (hkeeps.leave hw _).weak
    rw [exec_foreverLoop]
    exact Straight.refl _
  | foreachLoop o h body ih =>
    rw [exec_foreachLoop, error_emitOp, error_emitOp, error_leave] at herr
    have herrb := error_of_endForeach herr
    have hcon := (((Contents.skip hc.enterLoop ho.enterLoop hw.enterLoop).jumped h).seq
      (fun hc ho hw => ih hc ho hw herrb) herrb).of_skip
    obtain ⟨hmem, hlt⟩ := hcon.mem_spare _ (List.mem_singleton_self _)
    have hkeeps := hcon.keeps.endForeach hw.enterLoop hmem (.inr hlt) herr
    have hall := lawful_loop (t := .foreachLoop o h body) c.code.length hc ho hw
      (fits_loop (g := True) ho (fun _ => rfl) (by
        simp only [Shape.loopsOk, Bool.and_eq_true, true_and])) hcon hkeeps
      ((Keeps.refl hcon.keeps.weak _).endForeach hcon.keeps.weak hmem
        (.inl (List.mem_singleton_self _)) herr)
      fun hf => by
        obtain ⟨he, hl⟩ := hcon.emitted hf
        have hl := hl _ (List.mem_singleton_self _)
        exact .inl ⟨trivial, closing_endForeach he.core he.openOk hl.mem_jumps hl.fresh hl.apart
          he.frame.loopStart hcon.keeps.length herr⟩
    refine lawful_of_loop _ hall (fun _ => rfl) (fun _ => rfl) ?_ (hkeeps.leave hw _).weak
    rw [exec_foreachLoop]
    exact (straight_emitOp .pop rfl _).trans (straight_emitOp .pop rfl _)
  | _ => exact lawful_straight hc ho (straight_of_leaf c trivial) (fun _ => rfl) (fun _ => rfl) rfl

/-! ### Functions -/

/-- The code of a function is that of its body's shape and the final return. -/
theorem compileBody_eq (enclosing : List (List (Option Bytes))) (replMode inlineBody : Bool)
    (body : Node) : compileBody enclosing replMode inlineBody body =
      exec (emitOp .return) (exec (emitOp .pushNull)
        (exec (shape body).emit (Compiler.init enclosing replMode inlineBody))) := by
  rw [← compileNode_eq]
  rfl

section

variable (enclosing : List (List (Option Bytes))) (replMode inlineBody : Bool)

theorem openJumps_init (e : Exit) :
    (Compiler.init enclosing replMode inlineBody).openJumps e = [] := by
  cases e <;> rfl

theorem core_init : Core (Compiler.init enclosing replMode inlineBody) := by
  refine ⟨.zero, ?_, ?_, List.nodup_nil, ?_, ?_, ?_⟩
  · exact fun j hj => absurd hj List.not_mem_nil
  · exact fun j hj => absurd hj List.not_mem_nil
  · exact fun j hj => absurd hj List.not_mem_nil
  · rintro (_ | _) s hs <;> exact absurd hs List.not_mem_nil
  · rintro (_ | _) s hs <;> exact absurd hs List.not_mem_nil

theorem openOk_init : OpenOk (Compiler.init enclosing replMode inlineBody) := by
  have hnone := openJumps_init enclosing replMode inlineBody
  refine ⟨?_, ?_, ?_, ?_, ?_, ?_, ?_⟩
  · intro e j hj; rw [hnone] at hj; cases hj
  · intro e j hj; rw [hnone] at hj; cases hj
  · intro e j hj; rw [hnone] at hj; cases hj
  · rw [hnone, hnone]; exact List.nodup_nil
  · rintro (_ | _) <;> exact List.length_replicate
  · rintro (_ | _) <;> rfl
  · rintro (_ | _) <;> rfl

theorem weak_init : Weak (Compiler.init enclosing replMode inlineBody) := by
  have hslot : ∀ e, ∀ j ∈ ((Compiler.init enclosing replMode inlineBody).pending e).jumps, j = 0 := by
    rintro (_ | _) j hj <;> exact List.eq_of_mem_replicate hj
  exact Weak.of_core (core_init enclosing replMode inlineBody)
    (openOk_init enclosing replMode inlineBody)
    (fun e j hj => (hslot e j hj).symm ▸ Nat.zero_le _)
    fun e _ i _ j hj _ => .inl (hslot e j (List.mem_iff_getElem?.2 ⟨i, hj⟩))

variable {enclosing replMode inlineBody} {body : Node}

/-- The final return lies after every jump. -/
theorem loopLaw_return {c : Compiler} {own : Exit → ℕ} {uses : Exit → Bool}
    (h : Emitted [] (counted (Compiler.init enclosing replMode inlineBody).inLoop own) uses
      (Compiler.init enclosing replMode inlineBody) c) :
    LoopLaw (exec (emitOp .return) (exec (emitOp .pushNull) c)) := by
  have hret := (straight_emitOp .pushNull rfl c).trans (straight_emitOp .return rfl _)
  have hs := EndStep.straight h.core hret
  have hcore := h.core.straight hret
  have hlen : (exec (emitOp .return) (exec (emitOp .pushNull) c)).code.length =
      c.code.length + 2 := by simp
  have hpatched : ∀ j ∈ c.audit.jumps, j ∈ c.audit.patched := by
    intro j hj
    rcases h.frame.new j hj with hj | hp | ⟨e, he⟩ | hl
    · exact absurd hj List.not_mem_nil
    · exact hp
    · obtain ⟨js, hjs, hcount, -⟩ := h.frame.openJumps e
      have hnone : js = [] := List.length_eq_zero_iff.1 hcount
      rw [hjs, hnone, openJumps_init] at he
      exact absurd he List.not_mem_nil
    · exact absurd hl List.not_mem_nil
  refine ⟨fun j hj => ?_, fun j hj => ⟨?_, ?_⟩, hcore.routed⟩
  · exact List.nodup_iff_count_eq_one.1 hcore.nodup j (hpatched j hj)
  · exact hcore.landing j (hpatched j hj)
  · have hle := h.core.boundary.le_length (h.core.landing j (hpatched j hj))
    rw [hs.target j (hpatched j hj), hlen]
    omega

/-- A function whose body fits obeys the law, and any other does not. -/
theorem compileBody_lawful (h : (compileBody enclosing replMode inlineBody body).error = none) :
    ((shape body).loopsOk false (fun _ => false) →
        LoopLaw (compileBody enclosing replMode inlineBody body)) ∧
      (LoopLaw (compileBody enclosing replMode inlineBody body) →
        (shape body).loopsOk false (fun _ => false)) := by
  rw [compileBody_eq] at h ⊢
  rw [error_emitOp, error_emitOp] at h
  have hc := core_init enclosing replMode inlineBody
  have ho := openOk_init enclosing replMode inlineBody
  have hw := weak_init enclosing replMode inlineBody
  have hret := (straight_emitOp .pushNull rfl (exec (shape body).emit
    (Compiler.init enclosing replMode inlineBody))).trans (straight_emitOp .return rfl _)
  have hweak := (keeps_emit (shape body) hw h).weak
  have hlawful := emit_lawful (shape body) hc ho hw h
  have hwaits : (Compiler.init enclosing replMode inlineBody).waits = fun _ => false := by
    funext e
    rw [Compiler.waits, openJumps_init]
    rfl
  have hfits : Fits (shape body) (Compiler.init enclosing replMode inlineBody) ↔
      (shape body).loopsOk false (fun _ => false) := by
    refine ⟨fun hf => hwaits ▸ hf.loops, fun hl => ⟨?_, fun hin => absurd hin ?_⟩⟩
    · rw [hwaits]
      exact hl
    · exact Bool.false_ne_true
  rw [Lawful, hfits] at hlawful
  generalize exec (shape body).emit (Compiler.init enclosing replMode inlineBody) = c at *
  rcases hlawful with ⟨hl, he⟩ | ⟨hl, j, hd, -⟩
  · exact ⟨fun _ => loopLaw_return he, fun _ => hl⟩
  · have hd' := ((Keeps.refl hweak []).straight hret).doomed j hd List.not_mem_nil
    exact ⟨fun h => absurd h hl, fun hlaw => absurd hlaw hd'.not_loopLaw⟩

/-- The jumps of loops of a compiled function obey the law exactly when every loop of its body
handles its own. -/
theorem loopLaw_iff (h : (compileBody enclosing replMode inlineBody body).error = none) :
    LoopLaw (compileBody enclosing replMode inlineBody body) ↔
      (shape body).loopsOk false (fun _ => false) :=
  ⟨(compileBody_lawful h).2, (compileBody_lawful h).1⟩

end

/-- `while (true) { foreach $x ($y) { continue; } break; }` -/
def nestedLoops : Node :=
  .script [.whileStmt (.boolean true) (.block
    [.foreachStmt none (ascii "x") (.scalar (ascii "y")) (.block [.continueStmt]), .breakStmt])]

theorem loopLaw_nestedLoops : LoopLaw (compileBody [] false false nestedLoops) :=
  (loopLaw_iff (by decide +kernel)).2 (by decide +kernel)

/-- `while (true) { continue; }` -/
def continuingWhile : Node :=
  .script [.whileStmt (.boolean true) (.block [.continueStmt])]

/-- The `continue` of a `while` goes to the end of the loop. -/
theorem not_loopLaw_continuingWhile :
    (compileBody [] false false continuingWhile).error = none ∧
      ¬LoopLaw (compileBody [] false false continuingWhile) := by
  refine ⟨by decide +kernel, fun h => ?_⟩
  have hmem : (6, ⟨0, 12⟩) ∈ (compileBody [] false false continuingWhile).closed .cont := by decide +kernel
  obtain ⟨-, hlt, -⟩ := h.routed .cont _ hmem
  exact absurd hlt (by decide +kernel)

end Slp
