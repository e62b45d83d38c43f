import Slp.Compiler.ConstantTable
import Slp.Compiler.Layout
import Slp.Compiler.LoopLaw

/-!
# What a patch leaves alone

`Alters js c c'` : code is added, and before it only the operands `js` are written again.
`Closes P c c'` : the jumps of `P` moreover go where `P` says.  The ends of the loops are such steps
(`Closes.endWhile`, `Closes.endFor`, `Closes.endForever`, `Closes.endForeach`).
-/

namespace Slp

/-- Every jump of one list is apart from every jump of the other. -/
def Apart (is js : List ℕ) : Prop := ∀ i ∈ is, ∀ j ∈ js, i + 2 ≤ j ∨ j + 2 ≤ i

theorem Apart.symm {is js : List ℕ} (h : Apart is js) : Apart js is :=
  fun j hj i hi => (h i hi j hj).symm

/-- Code is added, and before it only the operands of the jumps `js` are written again. -/
structure Alters (js : List ℕ) (c c' : Compiler) : Prop where
  length : c.code.length ≤ c'.code.length
  bytes : ∀ i < c.code.length, (∀ j ∈ js, i ≠ j ∧ i ≠ j + 1) → c'.code[i]? = c.code[i]?
  /-- Jumps of open statements are added only. -/
  old : ∀ e, ∀ j ∈ c.openJumps e, j ∈ c'.openJumps e
  new : ∀ e, ∀ j ∈ c'.openJumps e, j ∈ c.openJumps e ∨ c.code.length < j
  table : c.constants <+: c'.constants

/-- What is read at `p` when the bytes there are the same. -/
theorem opcodeAt_congr {code code' : List UInt8} {p : ℕ} (h : code'[p]? = code[p]?) :
    opcodeAt code' p = opcodeAt code p := by rw [opcodeAt, opcodeAt, h]

theorem readShort_congr {code code' : List UInt8} {p : ℕ} (h : code'[p]? = code[p]?)
    (h' : code'[p + 1]? = code[p + 1]?) : readShort code' p = readShort code p := by
  simp only [readShort, List.getD_eq_getElem?_getD, h, h']

theorem jumpTarget_congr {code code' : List UInt8} {p : ℕ} (h : code'[p]? = code[p]?)
    (h' : code'[p + 1]? = code[p + 1]?) : jumpTarget code' p = jumpTarget code p := by
  rw [jumpTarget, jumpTarget, readShort_congr h h']

namespace Alters

variable {js js' : List ℕ} {c c' c'' : Compiler} {i j p q t : ℕ}

theorem refl (c : Compiler) : Alters [] c c :=
  ⟨Nat.le_refl _, fun _ _ _ => rfl, fun _ _ hj => hj, fun _ _ hj => .inl hj, List.prefix_refl _⟩

theorem trans (h : Alters js c c') (h' : Alters js' c' c'') : Alters (js ++ js') c c'' where
  length := Nat.le_trans h.length h'.length
  bytes i hi hne := by
    have hlt := Nat.lt_of_lt_of_le hi h.length
    rw [h'.bytes i hlt fun j hj => hne j (List.mem_append_right _ hj),
      h.bytes i hi fun j hj => hne j (List.mem_append_left _ hj)]
  old e j hj := h'.old e j (h.old e j hj)
  new e j hj := (h'.new e j hj).elim (h.new e j) fun hlt => .inr (Nat.lt_of_le_of_lt h.length hlt)
  table := h.table.trans h'.table

theorem of_append (bytes : List UInt8) (hcode : c'.code = c.code ++ bytes)
    (hopen : ∀ e, c'.openJumps e = c.openJumps e) (htable : c.constants <+: c'.constants) :
    Alters [] c c' where
  length := by rw [hcode, List.length_append]; omega
  bytes i hi _ := by rw [hcode, List.getElem?_append_left hi]
  old e j hj := by rwa [hopen]
  new e j hj := .inl (by rwa [hopen] at hj)
  table := htable

theorem emitOp (o : Opcode) (c : Compiler) : Alters [] c (exec (emitOp o) c) :=
  of_append [o.byte] rfl (by rintro (_ | _) <;> rfl) (List.prefix_refl _)

theorem jumped (o : Opcode) (c : Compiler) : Alters [] c (c.jumped o) :=
  of_append [o.byte, 0xFF, 0xFF] rfl (by rintro (_ | _) <;> rfl) (List.prefix_refl _)

theorem patched (t j : ℕ) (c : Compiler) : Alters [j] c (c.patched t j) where
  length := (c.length_patched t j).ge
  bytes i _ hne := by
    obtain ⟨h, h'⟩ := hne j (List.mem_singleton_self j)
    exact getElem?_patchShort_ne h h'
  old := by rintro (_ | _) j hj <;> exact hj
  new := by rintro (_ | _) j hj <;> exact .inl hj
  table := List.prefix_refl _

theorem getElem? (h : Alters js c c') (hi : i < c.code.length) (hjs : ∀ j ∈ js, j + 2 ≤ i ∨ i < j) :
    c'.code[i]? = c.code[i]? := by
  refine h.bytes i hi fun j hj => ?_
  have := hjs j hj
  omega

/-- A jump that is apart from those that are written goes where it went. -/
theorem jumpTarget (h : Alters js c c') (hj : j + 2 ≤ c.code.length) (hjs : Apart js [j]) :
    jumpTarget c'.code j = jumpTarget c.code j := by
  have hapart := fun i hi => hjs i hi j (List.mem_singleton_self j)
  refine jumpTarget_congr (h.bytes j (by omega) fun i hi => ?_)
    (h.bytes (j + 1) (by omega) fun i hi => ?_)
  · have := hapart i hi
    omega
  · have := hapart i hi
    omega

theorem opcodeAt (h : Alters js c c') (hp : p < c.code.length) (hjs : ∀ j ∈ js, j + 2 ≤ p) :
    opcodeAt c'.code p = opcodeAt c.code p :=
  opcodeAt_congr (h.getElem? hp fun j hj => .inl (hjs j hj))

theorem loopsBack (h : Alters js c c') (hp : p + 3 ≤ c.code.length) (hjs : ∀ j ∈ js, j + 2 ≤ p)
    (hl : LoopsBack c.code p q) : LoopsBack c'.code p q := by
  have hget : ∀ i, p ≤ i → i < p + 3 → c'.code[i]? = c.code[i]? := fun i hi hi' =>
    h.getElem? (by omega) fun j hj => .inl (by have := hjs j hj; omega)
  have hread : readShort c'.code (p + 1) = readShort c.code (p + 1) :=
    readShort_congr (hget _ (by omega) (by omega)) (hget _ (by omega) (by omega))
  refine ⟨(opcodeAt_congr (hget p (by omega) (by omega))).trans hl.1, ?_⟩
  rw [hread]
  exact hl.2

end Alters

/-- Code is added, and before it the jumps of `P` are made to go where `P` says. -/
structure Closes (P : List (ℕ × ℕ)) (c c' : Compiler) : Prop where
  alters : Alters (P.map Prod.fst) c c'
  sent : ∀ x ∈ P, jumpTarget c'.code x.1 = x.2

namespace Closes

variable {P Q : List (ℕ × ℕ)} {js : List ℕ} {c c' c'' : Compiler} {j t : ℕ}

theorem of_alters (h : Alters [] c c') : Closes [] c c' :=
  ⟨h, fun _ hx => absurd hx List.not_mem_nil⟩

theorem trans (h : Closes P c c') (h' : Closes Q c' c'')
    (hle : ∀ x ∈ P, x.1 + 2 ≤ c.code.length) (hapart : Apart (P.map Prod.fst) (Q.map Prod.fst)) :
    Closes (P ++ Q) c c'' := by
  refine ⟨by rw [List.map_append]; exact h.alters.trans h'.alters, fun x hx => ?_⟩
  rcases List.mem_append.1 hx with hx | hx
  · have hlen := h.alters.length
    have hin := hle x hx
    refine (h'.alters.jumpTarget (by omega) fun i hi k hk => ?_).trans (h.sent x hx)
    rw [List.mem_singleton.1 hk]
    exact (hapart _ (List.mem_map_of_mem hx) i hi).symm
  · exact h'.sent x hx

/-- What is written next patches nothing. -/
theorem quiet (h : Closes P c c') (h' : Alters [] c' c'')
    (hle : ∀ x ∈ P, x.1 + 2 ≤ c.code.length) : Closes P c c'' := by
  have hall := h.trans (of_alters h') hle fun _ _ _ hj => absurd hj List.not_mem_nil
  rwa [List.append_nil] at hall

theorem after (h : Alters [] c c') (h' : Closes P c' c'') : Closes P c c'' :=
  (of_alters h).trans h' (fun _ hx => absurd hx List.not_mem_nil)
    fun _ hi => absurd hi List.not_mem_nil

theorem patched (hle : j + 2 ≤ t) (hfar : t ≤ j + 2 + 65535) (hin : j + 2 ≤ c.code.length) :
    Closes [(j, t)] c (c.patched t j) :=
  ⟨Alters.patched t j c, fun x hx => by
    rw [List.mem_singleton.1 hx]
    exact jumpTarget_patchShort hin hle hfar⟩

theorem patchJump (hin : j + 2 ≤ c.code.length) (herr : (exec (patchJump j) c).error = none) :
    Closes [(j, c.code.length)] c (exec (Slp.patchJump j) c) := by
  obtain ⟨heq, hle⟩ := patchJump_ok herr
  rw [heq]
  exact patched hin (by omega) hin

theorem patchedAll (hin : ∀ j ∈ js, j + 2 ≤ c.code.length)
    (hapart : js.Pairwise fun i j => i + 2 ≤ j ∨ j + 2 ≤ i)
    (hreach : ∀ j ∈ js, j + 2 ≤ t ∧ t ≤ j + 2 + 65535) :
    Closes (js.map (·, t)) c (c.patchedAll t js) := by
  induction js generalizing c with
  | nil => exact of_alters (.refl c)
  | cons j js ih =>
    obtain ⟨hj, hjs⟩ := List.pairwise_cons.1 hapart
    have hone := hreach j List.mem_cons_self
    have hin₁ := hin j List.mem_cons_self
    refine (patched hone.1 hone.2 hin₁).trans
      (ih (fun i hi => by
        rw [Compiler.length_patched]
        exact hin i (List.mem_cons_of_mem j hi)) hjs fun i hi => hreach i (List.mem_cons_of_mem j hi))
      (fun x hx => by
        rw [List.mem_singleton.1 hx]
        exact hin₁) ?_
    intro i hi k hk
    obtain rfl : i = j := List.mem_singleton.1 hi
    rw [List.map_map, List.mem_map] at hk
    obtain ⟨k', hk', rfl⟩ := hk
    exact hj k' hk'

/-- The order of the jumps does not matter. -/
theorem congr (h : Closes P c c') (hmem : ∀ x, x ∈ P ↔ x ∈ Q) : Closes Q c c' where
  alters :=
    { h.alters with
      bytes := fun i hi hne => h.alters.bytes i hi fun j hj => by
        obtain ⟨x, hx, rfl⟩ := List.mem_map.1 hj
        exact hne _ (List.mem_map_of_mem ((hmem x).1 hx)) }
  sent x hx := h.sent x ((hmem x).2 hx)

theorem patchLive (hin : ∀ j ∈ js, j + 2 ≤ c.code.length)
    (hapart : js.Pairwise fun i j => i + 2 ≤ j ∨ j + 2 ≤ i)
    (herr : (exec (js.forM Slp.patchJump) c).error = none) :
    Closes (js.map (·, c.code.length)) c (exec (js.forM Slp.patchJump) c) ∧
      (exec (js.forM Slp.patchJump) c).code.length = c.code.length := by
  obtain ⟨heq, hreach, -⟩ := exec_forM_patchJump herr
  rw [heq, Compiler.length_patchedAll]
  exact ⟨patchedAll hin hapart fun j hj => ⟨hin j hj, hreach j hj⟩, rfl⟩

end Closes

/-! ### The ends of loops -/

theorem Core.pairwise {c : Compiler} (hc : Core c) {js : List ℕ} (hmem : ∀ j ∈ js, j ∈ c.audit.jumps)
    (hnodup : js.Nodup) : js.Pairwise fun i j => i + 2 ≤ j ∨ j + 2 ≤ i := by
  refine List.Pairwise.imp_of_mem (fun hi hj hne => ?_) hnodup
  have := (hc.isJump _ (hmem _ hi)).apart (hc.isJump _ (hmem _ hj))
  omega

theorem TakesBack.alters {js : List ℕ} {c c' : Compiler} {p q : ℕ} (h : TakesBack c.code p q)
    (ha : Alters js c c') (hp : p + 3 ≤ c.code.length) (hjs : ∀ j ∈ js, j + 2 ≤ p) :
    TakesBack c'.code p q :=
  ⟨ha.loopsBack hp hjs h.1, h.2⟩

section

variable {b : Compiler} {j l next : ℕ}

/-- The jump back of a loop. -/
theorem takesBack_emitLoop (hstart : b.loopStart = l) (hle : l ≤ b.code.length)
    (herr : (exec (emitLoop b.loopStart) b).error = none) :
    Alters [] b (exec (emitLoop b.loopStart) b) ∧
      (exec (emitLoop b.loopStart) b).code.length = b.code.length + 3 ∧
      TakesBack (exec (emitLoop b.loopStart) b).code b.code.length l ∧
      ∀ e, (exec (emitLoop b.loopStart) b).pending e = b.pending e := by
  rw [hstart] at herr ⊢
  obtain ⟨x, y, heq, hnear, hback⟩ := emitLoop_ok herr
  have hback := hback hle
  rw [heq] at hback ⊢
  exact ⟨.of_append _ rfl (by rintro (_ | _) <;> rfl) (List.prefix_refl _), by simp, ⟨hback, hnear⟩,
    by rintro (_ | _) <;> rfl⟩

/-- The jump back and the exit of a loop with a test. -/
theorem closes_exit (hin : j + 2 ≤ b.code.length) (hstart : b.loopStart = l)
    (hle : l ≤ b.code.length)
    (herr : (exec (patchJump j) (exec (emitLoop b.loopStart) b)).error = none) :
    let c := exec (emitOp .pop) (exec (patchJump j) (exec (emitLoop b.loopStart) b))
    Closes [(j, b.code.length + 3)] b c ∧ c.code.length = b.code.length + 4 ∧
      TakesBack c.code b.code.length l ∧ opcodeAt c.code (b.code.length + 3) = some .pop ∧
      ∀ e, c.pending e = b.pending e := by
  intro c
  obtain ⟨hloop, hlen, hback, hpend⟩ := takesBack_emitLoop hstart hle (error_of_patchJump herr)
  have hpatch := Closes.patchJump (by omega) herr
  have heq := (patchJump_ok herr).1
  have hlenp : (exec (patchJump j) (exec (emitLoop b.loopStart) b)).code.length =
      b.code.length + 3 := by rw [heq, Compiler.length_patched, hlen]
  rw [hlen] at hpatch
  have hpop := Alters.emitOp .pop (exec (patchJump j) (exec (emitLoop b.loopStart) b))
  refine ⟨(Closes.after hloop hpatch).quiet hpop fun x hx => ?_, ?_, ?_, ?_, fun e => ?_⟩
  · rw [List.mem_singleton.1 hx]
    exact hin
  · change ((exec (patchJump j) (exec (emitLoop b.loopStart) b)).code ++ [_]).length = _
    rw [List.length_append, hlenp, List.length_singleton]
  · refine (hback.alters hpatch.alters (by omega) fun i hi => ?_).alters hpop (by omega)
      fun _ hi => absurd hi List.not_mem_nil
    rw [List.mem_singleton.1 hi]
    exact hin
  · rw [← hlenp]
    exact opcodeAt_emit _ .pop []
  · rw [← hpend e]
    change (exec (emitOp .pop) (exec (patchJump j) (exec (emitLoop b.loopStart) b))).pending e = _
    rw [heq]
    cases e <;> rfl

/-- The jumps that the end of a loop patches: those of `loose`, and those of the open statements. -/
def endJumps (b : Compiler) (loose : List (ℕ × ℕ)) (brk cont : ℕ) : List (ℕ × ℕ) :=
  loose ++ ((b.openJumps .brk).map (·, brk) ++ (b.openJumps .cont).map (·, cont))

/-- A placeholder and the open statements are apart from each other. -/
structure Spread (b : Compiler) (loose : List ℕ) : Prop where
  le_loose : ∀ j ∈ loose, j + 2 ≤ b.code.length
  le : ∀ e, ∀ j ∈ b.openJumps e, j + 2 ≤ b.code.length
  pairwise : ∀ e, (b.openJumps e).Pairwise fun i j => i + 2 ≤ j ∨ j + 2 ≤ i
  loose : ∀ e, Apart loose (b.openJumps e)
  kinds : Apart (b.openJumps .brk) (b.openJumps .cont)
  live : ∀ e, (b.pending e).live = b.openJumps e

theorem apart_of_disjoint (hc : Core b) {is js : List ℕ} (hi : ∀ i ∈ is, i ∈ b.audit.jumps)
    (hj : ∀ j ∈ js, j ∈ b.audit.jumps) (hne : ∀ i ∈ is, i ∉ js) : Apart is js := by
  intro i him k hk
  rcases (hc.isJump i (hi i him)).apart (hc.isJump k (hj k hk)) with rfl | h | h
  · exact absurd hk (hne _ him)
  · omega
  · omega

theorem spread (hc : Core b) (ho : OpenOk b) {loose : List ℕ} (hl : ∀ j ∈ loose, Loose b j) :
    Spread b loose where
  le_loose j hj := (hl j hj).lt hc
  le e j hj := (hc.le_length (ho.mem_jumps e j hj)).2
  pairwise e := hc.pairwise (ho.mem_jumps e) (ho.waiting e).nodup
  loose e := apart_of_disjoint hc (fun j hj => (hl j hj).mem_jumps) (ho.mem_jumps e)
    fun j hj => (hl j hj).apart e
  kinds := apart_of_disjoint hc (ho.mem_jumps .brk) (ho.mem_jumps .cont)
    fun _ hb hk => disjoint_openJumps ho hb hk
  live := ho.live

theorem map_fst_openJumps (e : Exit) (t : ℕ) :
    ((b.openJumps e).map (·, t)).map Prod.fst = b.openJumps e := by
  rw [List.map_map]
  exact List.map_id _

theorem le_of_mem_openJumps {loose : List ℕ} (h : Spread b loose) (e : Exit) (t : ℕ) :
    ∀ x ∈ (b.openJumps e).map (·, t), x.1 + 2 ≤ b.code.length := by
  intro x hx
  obtain ⟨i, hi, rfl⟩ := List.mem_map.1 hx
  exact h.le e i hi

theorem le_of_mem_both {loose : List ℕ} (h : Spread b loose) (e e' : Exit) (t t' : ℕ) :
    ∀ i ∈ ((b.openJumps e).map (·, t)).map Prod.fst ++ ((b.openJumps e').map (·, t')).map Prod.fst,
      i + 2 ≤ b.code.length := by
  rw [map_fst_openJumps, map_fst_openJumps]
  exact fun i hi => (List.mem_append.1 hi).elim (h.le e i) (h.le e' i)

/-- The compiler `c`, some steps after `b`, in which the open statements are still pending. -/
structure Pends (b c : Compiler) : Prop where
  length : b.code.length ≤ c.code.length
  pending : ∀ e, c.pending e = b.pending e

namespace Pends

variable {c : Compiler} {loose : List ℕ}

/-- The jumps of one kind are patched to the end of the code. -/
theorem patchLive (hp : Pends b c) (h : Spread b loose) {e : Exit} {patches : Emit Unit}
    (hpatches : exec patches c = exec ((c.pending e).live.forM Slp.patchJump) c)
    (herr : (exec patches c).error = none) :
    Closes ((b.openJumps e).map (·, c.code.length)) c (exec patches c) ∧
      (exec patches c).code.length = c.code.length ∧ Pends b (exec patches c) := by
  have hlen := hp.length
  have hlive : (c.pending e).live = b.openJumps e := by rw [hp.pending, h.live]
  rw [hlive] at hpatches
  rw [hpatches] at herr ⊢
  obtain ⟨hcloses, hsame⟩ := Closes.patchLive (fun i hi => by
    have := h.le e i hi
    omega) (h.pairwise e) herr
  refine ⟨hcloses, hsame, ⟨by omega, fun e' => ?_⟩⟩
  rw [(exec_forM_patchJump herr).1, Compiler.patchedAll_eq, ← hp.pending e']
  cases e' <;> rfl

theorem patchBreaks (hp : Pends b c) (h : Spread b loose) (herr : (exec patchBreaks c).error = none) :
    Closes ((b.openJumps .brk).map (·, c.code.length)) c (exec Slp.patchBreaks c) ∧
      (exec Slp.patchBreaks c).code.length = c.code.length ∧ Pends b (exec Slp.patchBreaks c) :=
  hp.patchLive h (e := .brk) rfl herr

theorem patchContinues (hp : Pends b c) (h : Spread b loose)
    (herr : (exec patchContinues c).error = none) :
    Closes ((b.openJumps .cont).map (·, c.code.length)) c (exec Slp.patchContinues c) ∧
      (exec Slp.patchContinues c).code.length = c.code.length ∧
      Pends b (exec Slp.patchContinues c) :=
  hp.patchLive h (e := .cont) rfl herr

/-- The `continue` jumps of a `for` are sent to its step. -/
theorem writeContinues (hp : Pends b c) (h : Spread b loose)
    (hreach : ∀ i ∈ b.openJumps .cont, i + 2 ≤ next ∧ next ≤ i + 2 + 65535) :
    Closes ((b.openJumps .cont).map (·, next)) c (exec (Slp.writeContinues next) c) ∧
      (exec (Slp.writeContinues next) c).code.length = c.code.length ∧
      Pends b (exec (Slp.writeContinues next) c) := by
  have hlen := hp.length
  have hlive : c.continueJumps.live = b.openJumps .cont := (congrArg Pending.live (hp.pending .cont)).trans
    (h.live .cont)
  rw [exec_writeContinues, hlive, Compiler.length_patchedAll]
  refine ⟨.patchedAll (fun i hi => ?_) (h.pairwise .cont) hreach, rfl, ⟨?_, fun e => ?_⟩⟩
  · have := h.le .cont i hi
    omega
  · rwa [Compiler.length_patchedAll]
  · rw [Compiler.patchedAll_eq, ← hp.pending e]
    cases e <;> rfl

end Pends

variable {c : Compiler}

/-- All jumps of a loop are patched, in whatever order. -/
theorem closes_endJumps {loose : List (ℕ × ℕ)} {brk cont : ℕ} {e e' : Exit} {t t' : ℕ}
    {c' c'' : Compiler} (h : Spread b (loose.map Prod.fst)) (hloose : Closes loose b c)
    (hfirst : Closes ((b.openJumps e).map (·, t)) c c')
    (hsecond : Closes ((b.openJumps e').map (·, t')) c' c'') (hne : e ≠ e')
    (hbrk : (if e = .brk then t else t') = brk) (hcont : (if e = .cont then t else t') = cont) :
    Closes (endJumps b loose brk cont) b c'' := by
  have hle : ∀ x ∈ loose, x.1 + 2 ≤ b.code.length := fun x hx => h.le_loose _ (List.mem_map_of_mem hx)
  have hkinds : Apart (b.openJumps e) (b.openJumps e') := by
    cases e <;> cases e'
    · exact absurd rfl hne
    · exact h.kinds
    · exact h.kinds.symm
    · exact absurd rfl hne
  have hall := (hloose.trans hfirst hle (by rw [map_fst_openJumps]; exact h.loose e)).trans hsecond
    (fun x hx => (List.mem_append.1 hx).elim (hle x) (le_of_mem_openJumps h e t x)) (by
      rw [List.map_append, map_fst_openJumps, map_fst_openJumps]
      intro i hi
      exact (List.mem_append.1 hi).elim (h.loose e' i) (hkinds i))
  refine hall.congr fun x => ?_
  subst hbrk hcont
  cases e <;> cases e'
  · exact absurd rfl hne
  · simp [endJumps]
  · simp only [endJumps, List.mem_append]
    tauto
  · exact absurd rfl hne

/-- The end of a `while`. -/
theorem closes_endWhile (h : Spread b [j]) (hstart : b.loopStart = l) (hle : l ≤ b.code.length)
    (herr : (exec (endWhile j) b).error = none) :
    let c := exec (endWhile j) b
    Closes (endJumps b [(j, b.code.length + 3)] (b.code.length + 4) (b.code.length + 4)) b c ∧
      c.code.length = b.code.length + 4 ∧ TakesBack c.code b.code.length l ∧
      opcodeAt c.code (b.code.length + 3) = some .pop := by
  rw [exec_endWhile] at herr ⊢
  have herr₂ := error_of_patchContinues herr
  have herr₁ := error_of_patchBreaks herr₂
  rw [error_emitOp] at herr₁
  obtain ⟨hexit, hlen, hback, hpop, hpend⟩ :=
    closes_exit (h.le_loose j (List.mem_singleton_self j)) hstart hle herr₁
  generalize exec (emitOp .pop) (exec (patchJump j) (exec (emitLoop b.loopStart) b)) = c at *
  obtain ⟨hb, hlenb, hpb⟩ := (Pends.mk (by omega) hpend).patchBreaks h herr₂
  obtain ⟨hk, hlenk, -⟩ := hpb.patchContinues h herr
  rw [hlen] at hb hlenb
  rw [hlenb] at hk hlenk
  have hall := hb.alters.trans hk.alters
  have hjs := le_of_mem_both h .brk .cont (b.code.length + 4) (b.code.length + 4)
  refine ⟨closes_endJumps h hexit hb hk (by simp) rfl rfl, hlenk,
    hback.alters hall (by omega) hjs, ?_⟩
  rw [hall.opcodeAt (by omega) fun i hi => by have := hjs i hi; omega]
  exact hpop

/-- The end of a `for` with a condition. -/
theorem closes_endFor (h : Spread b [j]) (hstart : b.loopStart = l) (hle : l ≤ b.code.length)
    (hreach : ∀ i ∈ b.openJumps .cont, i + 2 ≤ next ∧ next ≤ i + 2 + 65535)
    (herr : (exec (endFor j next) b).error = none) :
    let c := exec (endFor j next) b
    Closes (endJumps b [(j, b.code.length + 3)] (b.code.length + 4) next) b c ∧
      c.code.length = b.code.length + 4 ∧ TakesBack c.code b.code.length l ∧
      opcodeAt c.code (b.code.length + 3) = some .pop := by
  rw [exec_endFor] at herr ⊢
  have herr₁ := error_of_patchBreaks herr
  rw [error_writeContinues, error_emitOp] at herr₁
  obtain ⟨hexit, hlen, hback, hpop, hpend⟩ :=
    closes_exit (h.le_loose j (List.mem_singleton_self j)) hstart hle herr₁
  generalize exec (emitOp .pop) (exec (patchJump j) (exec (emitLoop b.loopStart) b)) = c at *
  obtain ⟨hk, hlenk, hpk⟩ := (Pends.mk (by omega) hpend).writeContinues h hreach
  obtain ⟨hb, hlenb, -⟩ := hpk.patchBreaks h herr
  rw [hlen] at hlenk
  rw [hlenk] at hb hlenb
  have hall := hk.alters.trans hb.alters
  have hjs := le_of_mem_both h .cont .brk next (b.code.length + 4)
  refine ⟨closes_endJumps h hexit hk hb (by simp) rfl rfl, hlenb,
    hback.alters hall (by omega) hjs, ?_⟩
  rw [hall.opcodeAt (by omega) fun i hi => by have := hjs i hi; omega]
  exact hpop

/-- The end of a `for` without a condition. -/
theorem closes_endForever (h : Spread b []) (hstart : b.loopStart = l) (hle : l ≤ b.code.length)
    (hreach : ∀ i ∈ b.openJumps .cont, i + 2 ≤ next ∧ next ≤ i + 2 + 65535)
    (herr : (exec (endForever next) b).error = none) :
    let c := exec (endForever next) b
    Closes (endJumps b [] (b.code.length + 3) next) b c ∧
      c.code.length = b.code.length + 3 ∧ TakesBack c.code b.code.length l := by
  rw [exec_endForever] at herr ⊢
  have herr₁ := error_of_patchBreaks herr
  rw [error_writeContinues] at herr₁
  obtain ⟨hloop, hlen, hback, hpend⟩ := takesBack_emitLoop hstart hle herr₁
  generalize exec (emitLoop b.loopStart) b = c at *
  obtain ⟨hk, hlenk, hpk⟩ := (Pends.mk (by omega) hpend).writeContinues h hreach
  obtain ⟨hb, hlenb, -⟩ := hpk.patchBreaks h herr
  rw [hlen] at hlenk
  rw [hlenk] at hb hlenb
  have hall := hk.alters.trans hb.alters
  have hjs := le_of_mem_both h .cont .brk next (b.code.length + 3)
  exact ⟨closes_endJumps h (.of_alters hloop) hk hb (by simp) rfl rfl, hlenb,
    hback.alters hall (by omega) hjs⟩

/-- The end of a `foreach`, up to its cleanup. -/
theorem closes_endForeach (h : Spread b [j]) (hstart : b.loopStart = l) (hle : l ≤ b.code.length)
    (herr : (exec (endForeach j) b).error = none) :
    let c := exec (endForeach j) b
    Closes (endJumps b [(j, b.code.length + 3)] (b.code.length + 3) b.code.length) b c ∧
      c.code.length = b.code.length + 3 ∧ TakesBack c.code b.code.length l := by
  rw [exec_endForeach] at herr ⊢
  have herr₃ := error_of_patchBreaks herr
  have herr₂ := error_of_patchJump herr₃
  have hj := h.le_loose j (List.mem_singleton_self j)
  obtain ⟨hk, hlenk, hpk⟩ :=
    (Pends.mk (Nat.le_refl _) fun _ => rfl).patchContinues h (error_of_emitLoop herr₂)
  have hstartk : (exec patchContinues b).loopStart = l := by
    have heq : exec patchContinues b = _ := (exec_forM_patchJump (error_of_emitLoop herr₂)).1
    rw [heq, Compiler.patchedAll_eq]
    exact hstart
  generalize exec patchContinues b = c₁ at *
  obtain ⟨hloop, hlen, hback, hpend⟩ := takesBack_emitLoop hstartk (by omega) herr₂
  generalize exec (emitLoop c₁.loopStart) c₁ = c₂ at *
  have hexit := Closes.patchJump (by omega) herr₃
  have heq := (patchJump_ok herr₃).1
  have hpp : Pends b (exec (patchJump j) c₂) := by
    refine ⟨?_, fun e => ?_⟩
    · rw [heq, Compiler.length_patched]
      omega
    · rw [heq, ← hpk.pending e, ← hpend e]
      cases e <;> rfl
  have hlenp : (exec (patchJump j) c₂).code.length = b.code.length + 3 := by
    rw [heq, Compiler.length_patched]
    omega
  obtain ⟨hb, hlenb, -⟩ := hpp.patchBreaks h herr
  rw [hlen, hlenk] at hexit
  rw [hlenp] at hb hlenb
  have hlek := le_of_mem_openJumps h .cont b.code.length
  have hallk := (hk.quiet hloop hlek).trans hexit hlek (by
    rw [map_fst_openJumps]
    exact (h.loose .cont).symm)
  have hall := hallk.trans hb (fun x hx => (List.mem_append.1 hx).elim (hlek x) fun hx => by
      rw [List.mem_singleton.1 hx]
      exact hj) (by
    rw [List.map_append, map_fst_openJumps, map_fst_openJumps]
    intro i hi
    exact (List.mem_append.1 hi).elim (h.kinds.symm i) (h.loose .brk i))
  refine ⟨hall.congr fun x => ?_, hlenb, ?_⟩
  · simp only [endJumps, List.mem_append]
    tauto
  · rw [← hlenk]
    refine hback.alters (hexit.alters.trans hb.alters) (by omega) fun i hi => ?_
    rw [map_fst_openJumps] at hi
    rcases List.mem_append.1 hi with hi | hi
    · rw [List.mem_singleton.1 hi]
      omega
    · have := h.le .brk i hi
      omega

end

end Slp
