import Slp.Compiler.Loops

/-!
# Jumps that are beyond repair

A loop may overwrite the pending jumps of the loop around it, and a jump may be dropped when the
array is full.  What the compiler does then is no longer covered by `Core` and `OpenOk`; this file
has the invariant that is left (`Weak`), what a shape does to a compiler in any such state
(`Keeps`, `keeps_emit`), and the placeholders that break the law whatever is emitted after them
(`Doomed`).
-/

namespace Slp

/-- What holds of the compiler whatever its loops do to each other's jumps. -/
structure Weak (c : Compiler) : Prop where
  pos : ∀ j ∈ c.audit.jumps, 0 < j
  le_length : ∀ j ∈ c.audit.jumps, j + 2 ≤ c.code.length
  apart : ∀ i ∈ c.audit.jumps, ∀ j ∈ c.audit.jumps, i = j ∨ i + 2 ≤ j ∨ j + 2 ≤ i
  slots : ∀ e, (c.pending e).jumps.length = maxPending
  bound : ∀ e, ∀ j ∈ (c.pending e).jumps, j ≤ c.code.length
  live : ∀ e, ∀ j ∈ (c.pending e).live, j ∈ c.audit.jumps
  distinct : ∀ (e e' : Exit) (i i' j : ℕ), (c.pending e).jumps[i]? = some j →
    (c.pending e').jumps[i']? = some j → j = 0 ∨ (e = e' ∧ i = i')

/-- The placeholder `j` breaks the law, whatever is emitted after it. -/
inductive Doomed (c : Compiler) (j : ℕ) : Prop where
  /-- It is not patched and no array has it any more. -/
  | lost (hj : j ∈ c.audit.jumps) (hp : j ∉ c.audit.patched)
      (hs : ∀ e, j ∉ (c.pending e).jumps)
  /-- It was patched twice. -/
  | twice (hj : j ∈ c.audit.jumps) (hp : 2 ≤ c.audit.patched.count j)
  /-- It is a `continue` that leaves its loop. -/
  | astray (hj : j ∈ c.audit.jumps) (hp : j ∈ c.audit.patched) (l : LoopSpan)
      (hl : (j, l) ∈ c.closed .cont) (ht : l.exit ≤ jumpTarget c.code j)

/-- What a piece does to a compiler in any state: it writes after the code, puts its own jumps in
the slots it writes to, and saves no placeholder but those in `spare`. -/
structure Keeps (spare : List ℕ) (uses : Exit → Bool) (c c' : Compiler) : Prop where
  weak : Weak c'
  length : c.code.length ≤ c'.code.length
  loopStart : c'.loopStart = c.loopStart
  jumps : ∀ j ∈ c.audit.jumps, j ∈ c'.audit.jumps
  slot : ∀ (e : Exit) (i j : ℕ), (c'.pending e).jumps[i]? = some j →
    (c.pending e).jumps[i]? = some j ∨ (c.code.length < j ∧ j ∈ c'.audit.jumps)
  unused : ∀ e, uses e = false → c'.pending e = c.pending e
  /-- The first slot is overwritten by a piece that starts with an empty array. -/
  used : ∀ e, uses e → 0 ≤ c.loopStart → (c.pending e).count = 0 →
    ∀ j, (c'.pending e).jumps[0]? = some j → c.code.length < j
  doomed : ∀ j, Doomed c j → j ∉ spare → Doomed c' j

namespace Doomed

variable {c c' : Compiler} {i j t : ℕ}

theorem mem_jumps (h : Doomed c j) : j ∈ c.audit.jumps := by
  cases h <;> assumption

theorem not_loopLaw (h : Doomed c j) : ¬LoopLaw c := by
  intro hlaw
  have honce := hlaw.patchedOnce j h.mem_jumps
  cases h with
  | lost hj hp hs =>
    rw [List.count_eq_zero_of_not_mem hp] at honce
    omega
  | twice hj hp => omega
  | astray hj hp l hl ht =>
    obtain ⟨-, hlt, -⟩ := hlaw.routed .cont _ hl
    dsimp only at hlt
    omega

/-- A step that leaves the jumps and the arrays alone, and the code up to its end. -/
theorem congr (h : Doomed c j) (hw : Weak c) (hcode : ∃ bytes, c'.code = c.code ++ bytes)
    (hjumps : ∀ j ∈ c.audit.jumps, j ∈ c'.audit.jumps)
    (hpatched : c'.audit.patched = c.audit.patched)
    (hslots : ∀ e, j ∈ (c'.pending e).jumps → j ∈ (c.pending e).jumps)
    (hclosed : ∀ s ∈ c.closed .cont, s ∈ c'.closed .cont) : Doomed c' j := by
  obtain ⟨bytes, hcode⟩ := hcode
  cases h with
  | lost hj hp hs => exact .lost (hjumps j hj) (hpatched ▸ hp) fun e he => hs e (hslots e he)
  | twice hj hp => exact .twice (hjumps j hj) (hpatched ▸ hp)
  | astray hj hp l hl ht =>
    refine .astray (hjumps j hj) (hpatched ▸ hp) l (hclosed _ hl) ?_
    rwa [hcode, jumpTarget_append (hw.le_length j hj)]

/-- A patch does not save a placeholder that it is not a patch of, and a lost one is in no slot. -/
theorem patched (h : Doomed c j) (hw : Weak c) (hi : i ∈ c.audit.jumps)
    (hne : i ≠ j ∨ ∃ e, i ∈ (c.pending e).jumps) : Doomed (c.patched t i) j := by
  have hcount : (c.patched t i).audit.patched.count j =
      c.audit.patched.count j + [i].count j := List.count_append
  cases h with
  | lost hj hp hs =>
    have hij : i ≠ j := by
      rcases hne with hne | ⟨e, he⟩
      · exact hne
      · rintro rfl
        exact hs e he
    refine .lost hj (fun hmem => ?_) fun e he => hs e (by cases e <;> exact he)
    rcases List.mem_append.1 hmem with hmem | hmem
    · exact hp hmem
    · exact hij (List.mem_singleton.1 hmem).symm
  | twice hj hp => exact .twice hj (by omega)
  | astray hj hp l hl ht =>
    have hpos := List.count_pos_iff.2 hp
    by_cases hij : i = j
    · subst hij
      exact .twice hj (by rw [hcount, List.count_singleton_self]; omega)
    · refine .astray hj (List.mem_append_left _ hp) l hl ?_
      rcases hw.apart i hi j hj with h | h
      · exact absurd h hij
      · rwa [Compiler.patched, jumpTarget, readShort_patchShort_ne (by omega)]

end Doomed

/-! ### The invariant that is left -/

namespace Weak

variable {c c' : Compiler} {i j t : ℕ}

theorem of_straight (h : Weak c) (hs : Straight c c') : Weak c' := by
  obtain ⟨bytes, hcode⟩ := hs.code
  have hlen : c.code.length ≤ c'.code.length := by
    rw [hcode, List.length_append]
    omega
  have hpend : ∀ e, c'.pending e = c.pending e := by
    rintro (_ | _)
    · exact hs.breakJumps
    · exact hs.continueJumps
  refine ⟨?_, ?_, ?_, ?_, ?_, ?_, ?_⟩
  · rw [hs.audit]; exact h.pos
  · rw [hs.audit]; exact fun j hj => Nat.le_trans (h.le_length j hj) hlen
  · rw [hs.audit]; exact h.apart
  · intro e; rw [hpend]; exact h.slots e
  · intro e; rw [hpend]; exact fun j hj => Nat.le_trans (h.bound e j hj) hlen
  · intro e; rw [hpend, hs.audit]; exact h.live e
  · intro e e'; rw [hpend, hpend]; exact h.distinct e e'

theorem jumped (h : Weak c) (o : Opcode) : Weak (c.jumped o) := by
  have hpend : ∀ e, (c.jumped o).pending e = c.pending e := by rintro (_ | _) <;> rfl
  have hmem : ∀ j ∈ (c.jumped o).audit.jumps, j ∈ c.audit.jumps ∨ j = c.code.length + 1 :=
    fun j hj => (List.mem_append.1 hj).imp_right List.mem_singleton.1
  have hlen := Compiler.length_jumped c o
  refine ⟨fun j hj => ?_, fun j hj => ?_, fun i hi j hj => ?_, ?_, ?_, ?_, ?_⟩
  · rcases hmem j hj with hj | rfl
    · exact h.pos j hj
    · omega
  · rcases hmem j hj with hj | rfl
    · have := h.le_length j hj
      omega
    · omega
  · rcases hmem i hi with hi | rfl <;> rcases hmem j hj with hj | rfl
    · exact h.apart i hi j hj
    · have := h.le_length i hi
      omega
    · have := h.le_length j hj
      omega
    · exact .inl rfl
  · intro e; rw [hpend]; exact h.slots e
  · intro e; rw [hpend]
    intro j hj
    have := h.bound e j hj
    omega
  · intro e; rw [hpend]; exact fun j hj => List.mem_append_left _ (h.live e j hj)
  · intro e e'; rw [hpend, hpend]; exact h.distinct e e'

/-- The invariant looks neither at the record of patches nor at the bytes of the code. -/
theorem congr (h : Weak c) (hlen : c'.code.length = c.code.length)
    (hjumps : c'.audit.jumps = c.audit.jumps) (hpend : ∀ e, c'.pending e = c.pending e) :
    Weak c' := by
  refine ⟨?_, ?_, ?_, ?_, ?_, ?_, ?_⟩
  · rw [hjumps]; exact h.pos
  · rw [hjumps, hlen]; exact h.le_length
  · rw [hjumps]; exact h.apart
  · intro e; rw [hpend]; exact h.slots e
  · intro e; rw [hpend, hlen]; exact h.bound e
  · intro e; rw [hpend, hjumps]; exact h.live e
  · intro e e'; rw [hpend, hpend]; exact h.distinct e e'

theorem patched (h : Weak c) (t i : ℕ) : Weak (c.patched t i) :=
  h.congr (Compiler.length_patched c t i) rfl (by rintro (_ | _) <;> rfl)

/-- Only the counts change, to counts of slots that hold placeholders. -/
theorem recount (h : Weak c) (hcode : c'.code = c.code) (hjumps : c'.audit.jumps = c.audit.jumps)
    (hslots : ∀ e, (c'.pending e).jumps = (c.pending e).jumps)
    (hlive : ∀ e, ∀ j ∈ (c'.pending e).live, j ∈ c.audit.jumps) : Weak c' := by
  refine ⟨?_, ?_, ?_, ?_, ?_, ?_, ?_⟩
  · rw [hjumps]; exact h.pos
  · rw [hjumps, hcode]; exact h.le_length
  · rw [hjumps]; exact h.apart
  · intro e; rw [hslots]; exact h.slots e
  · intro e; rw [hslots, hcode]; exact h.bound e
  · intro e; rw [hjumps]; exact hlive e
  · intro e e'; rw [hslots, hslots]; exact h.distinct e e'

theorem enterLoop (h : Weak c) : Weak (exec enterLoop c) :=
  h.recount rfl rfl (by rintro (_ | _) <;> rfl) (by
    rintro (_ | _) j hj <;> exact absurd hj List.not_mem_nil)

end Weak

theorem Weak.of_core {c : Compiler} (hc : Core c) (ho : OpenOk c)
    (hbound : ∀ e, ∀ j ∈ (c.pending e).jumps, j ≤ c.code.length)
    (hdistinct : ∀ (e e' : Exit) (i i' j : ℕ), (c.pending e).jumps[i]? = some j →
      (c.pending e').jumps[i']? = some j → j = 0 ∨ (e = e' ∧ i = i')) : Weak c where
  pos j hj := (hc.le_length hj).1
  le_length j hj := (hc.le_length hj).2
  apart i hi j hj := by
    rcases (hc.isJump i hi).apart (hc.isJump j hj) with h | h | h <;> omega
  slots := ho.slots
  bound := hbound
  live e j hj := ho.mem_jumps e j (ho.live e ▸ hj)
  distinct := hdistinct

/-! ### What pieces keep -/

namespace Keeps

variable {spare : List ℕ} {uses uses' : Exit → Bool} {c c' c'' : Compiler} {i j t : ℕ}

theorem trans (h : Keeps spare uses c c') (h' : Keeps [] uses' c' c'') :
    Keeps spare (fun e => uses e || uses' e) c c'' where
  weak := h'.weak
  length := Nat.le_trans h.length h'.length
  loopStart := h'.loopStart.trans h.loopStart
  jumps j hj := h'.jumps j (h.jumps j hj)
  slot e i j hj := by
    rcases h'.slot e i j hj with hj | ⟨hlt, hj⟩
    · exact (h.slot e i j hj).imp_right fun ⟨hlt, hj⟩ => ⟨hlt, h'.jumps j hj⟩
    · exact .inr ⟨Nat.lt_of_le_of_lt h.length hlt, hj⟩
  unused e he := by
    rw [Bool.or_eq_false_iff] at he
    rw [h'.unused e he.2, h.unused e he.1]
  used e he hl hcount j hj := by
    cases hu : uses e with
    | true =>
      rcases h'.slot e 0 j hj with hj | ⟨hlt, -⟩
      · exact h.used e hu hl hcount j hj
      · exact Nat.lt_of_le_of_lt h.length hlt
    | false =>
      -- the first piece leaves the array as it is
      rw [hu, Bool.false_or] at he
      have hlt := h'.used e he (h.loopStart ▸ hl) (by rw [h.unused e hu, hcount]) j hj
      exact Nat.lt_of_le_of_lt h.length hlt
  doomed j hj hs := h'.doomed j (h.doomed j hj hs) List.not_mem_nil

/-- A step that does nothing to the arrays. -/
theorem quiet (h : Keeps spare uses c c') (hw : Weak c'') (hlen : c'.code.length ≤ c''.code.length)
    (hstart : c''.loopStart = c'.loopStart) (hjumps : ∀ j ∈ c'.audit.jumps, j ∈ c''.audit.jumps)
    (hpend : ∀ e, c''.pending e = c'.pending e) (hdoomed : ∀ j, Doomed c j → j ∉ spare → Doomed c'' j) :
    Keeps spare uses c c'' where
  weak := hw
  length := Nat.le_trans h.length hlen
  loopStart := hstart.trans h.loopStart
  jumps j hj := hjumps j (h.jumps j hj)
  slot e i j hj := by
    rw [hpend] at hj
    exact (h.slot e i j hj).imp_right fun ⟨hlt, hj⟩ => ⟨hlt, hjumps j hj⟩
  unused e he := by rw [hpend, h.unused e he]
  used e := by rw [hpend]; exact h.used e
  doomed := hdoomed

theorem refl (hw : Weak c) (spare : List ℕ) : Keeps spare (fun _ => false) c c :=
  ⟨hw, Nat.le_refl _, rfl, fun _ hj => hj, fun _ _ _ hj => .inl hj, fun _ _ => rfl,
    fun _ he => absurd he Bool.false_ne_true, fun _ hj _ => hj⟩

theorem straight (h : Keeps spare uses c c') (hs : Straight c' c'') : Keeps spare uses c c'' := by
  have hpend : ∀ e, c''.pending e = c'.pending e := by
    rintro (_ | _)
    · exact hs.breakJumps
    · exact hs.continueJumps
  have hjumps : ∀ j ∈ c'.audit.jumps, j ∈ c''.audit.jumps := by
    rw [hs.audit]
    exact fun _ hj => hj
  refine h.quiet (h.weak.of_straight hs) ?_ hs.loopStart hjumps hpend fun j hj hsp =>
    (h.doomed j hj hsp).congr h.weak hs.code hjumps (by rw [hs.audit]) ?_ ?_
  · obtain ⟨bytes, hcode⟩ := hs.code
    rw [hcode, List.length_append]
    omega
  · intro e he
    rwa [hpend] at he
  · intro s hs'
    rwa [Compiler.closed, hs.audit]

theorem jumped (h : Keeps spare uses c c') (o : Opcode) : Keeps spare uses c (c'.jumped o) :=
  h.quiet (h.weak.jumped o) (by simp) rfl (fun _ hj => List.mem_append_left _ hj)
    (by rintro (_ | _) <;> rfl) fun j hj hsp => (h.doomed j hj hsp).congr h.weak ⟨_, rfl⟩
      (fun _ hj => List.mem_append_left _ hj) rfl (by rintro (_ | _) he <;> exact he)
      fun _ hs => hs

/-- A placeholder of the piece, one to be spared or one that an array has is patched. -/
theorem patched (h : Keeps spare uses c c') (hw : Weak c) (hi : i ∈ c'.audit.jumps)
    (hne : (i ∈ spare ∨ c.code.length < i) ∨ ∃ e, i ∈ (c'.pending e).jumps) :
    Keeps spare uses c (c'.patched t i) := by
  refine h.quiet (h.weak.patched t i) (by simp) rfl (fun _ hj => hj) (by rintro (_ | _) <;> rfl)
    fun j hj hsp => (h.doomed j hj hsp).patched h.weak hi (hne.imp_left ?_)
  rintro (hin | hlt) rfl
  · exact hsp hin
  · have hle := hw.le_length i hj.mem_jumps
    omega

theorem patchJump (h : Keeps spare uses c c') (hw : Weak c) (hi : i ∈ c'.audit.jumps)
    (hne : i ∈ spare ∨ c.code.length < i) (herr : (exec (patchJump i) c').error = none) :
    Keeps spare uses c (exec (Slp.patchJump i) c') := by
  rw [(patchJump_ok herr).1]
  exact h.patched hw hi (.inl hne)

theorem patchedAll {js : List ℕ} (h : Keeps spare uses c c') (hw : Weak c)
    (hjs : ∀ i ∈ js, i ∈ c'.audit.jumps ∧ ∃ e, i ∈ (c'.pending e).jumps) :
    Keeps spare uses c (c'.patchedAll t js) := by
  induction js generalizing c' with
  | nil => exact h
  | cons i js ih =>
    obtain ⟨hi, hslot⟩ := hjs i List.mem_cons_self
    refine ih (h.patched hw hi (.inr hslot)) fun k hk => ?_
    obtain ⟨hk, e, he⟩ := hjs k (List.mem_cons_of_mem i hk)
    exact ⟨hk, e, by cases e <;> exact he⟩

theorem patchLive (h : Keeps spare uses c c') (hw : Weak c) (e : Exit) :
    Keeps spare uses c (c'.patchedAll t (c'.pending e).live) :=
  h.patchedAll hw fun i hi => ⟨h.weak.live e i hi, e, List.mem_of_mem_take hi⟩

theorem patchBreaks (h : Keeps spare uses c c') (hw : Weak c)
    (herr : (exec patchBreaks c').error = none) : Keeps spare uses c (exec Slp.patchBreaks c') := by
  have heq : exec Slp.patchBreaks c' = _ := (exec_forM_patchJump herr).1
  rw [heq]
  exact h.patchLive hw .brk

theorem patchContinues (h : Keeps spare uses c c') (hw : Weak c)
    (herr : (exec patchContinues c').error = none) :
    Keeps spare uses c (exec Slp.patchContinues c') := by
  have heq : exec Slp.patchContinues c' = _ := (exec_forM_patchJump herr).1
  rw [heq]
  exact h.patchLive hw .cont

theorem writeContinues (h : Keeps spare uses c c') (hw : Weak c) (t : ℕ) :
    Keeps spare uses c (exec (writeContinues t) c') := by
  rw [exec_writeContinues]
  exact h.patchLive hw .cont

theorem mono (h : Keeps spare uses c c') (huses : uses = uses') : Keeps spare uses' c c' := huses ▸ h

end Keeps

/-! ### Loops -/

/-- A jump in a slot that was not there when the piece began is one of the piece. -/
theorem Keeps.mem_jumps_of_slot {spare : List ℕ} {uses : Exit → Bool} {c c' : Compiler}
    (h : Keeps spare uses c c')
    {e : Exit} {n j : ℕ} (hlive : ∀ j ∈ (c.pending e).jumps.take n, j ∈ c.audit.jumps)
    (hj : j ∈ (c'.pending e).jumps.take n) : j ∈ c'.audit.jumps := by
  obtain ⟨i, hi⟩ := List.mem_iff_getElem?.1 hj
  rw [List.getElem?_take] at hi
  split at hi
  · rename_i hn
    rcases h.slot e i j hi with hold | ⟨-, hnew⟩
    · refine h.jumps j (hlive j (List.mem_iff_getElem?.2 ⟨i, ?_⟩))
      rw [List.getElem?_take, if_pos hn, hold]
    · exact hnew
  · cases hi

/-- A loop seen from the code around it. -/
theorem Keeps.leave {uses : Exit → Bool} {c last : Compiler} (hw : Weak c)
    (h : Keeps [] uses (exec enterLoop c) last) (next : ℕ) :
    Keeps [] uses c (c.leave next last) := by
  have hpending : ∀ e, (c.leave next last).pending e =
      ⟨(last.pending e).jumps, (c.pending e).count⟩ := by
    rintro (_ | _) <;> rfl
  have henter : ∀ e, (exec enterLoop c).pending e = ⟨(c.pending e).jumps, 0⟩ := by
    rintro (_ | _) <;> rfl
  refine ⟨h.weak.recount rfl rfl (fun e => by rw [hpending]) fun e j hj => ?_, h.length, rfl,
    h.jumps, fun e i j hj => ?_, fun e he => ?_, fun e he hl hcount j hj => ?_, fun j hj _ => ?_⟩
  · rw [hpending] at hj
    refine h.mem_jumps_of_slot (fun k hk => ?_) hj
    rw [henter] at hk
    exact hw.live e k hk
  · rw [hpending] at hj
    have hslot := h.slot e i j hj
    rwa [henter] at hslot
  · rw [hpending, h.unused e he, henter]
  · rw [hpending] at hj
    exact h.used e he (Int.natCast_nonneg _) (by rw [henter]) j hj
  · -- entering and leaving change the counts and the open statements only
    have hin : Doomed (exec enterLoop c) j :=
      hj.congr hw ⟨[], (List.append_nil _).symm⟩ (fun _ hj => hj) rfl
        (by rintro (_ | _) he <;> exact he) fun _ hs => hs
    exact (h.doomed j hin List.not_mem_nil).congr h.weak ⟨[], (List.append_nil _).symm⟩ (fun _ hj => hj) rfl
      (fun e he => by rwa [hpending] at he) fun s hs => List.mem_append_left _ hs

/-! ### Statements -/

theorem mem_slots_record {p : Pending} {i j k : ℕ} (h : (p.record j).jumps[i]? = some k) :
    p.jumps[i]? = some k ∨ (k = j ∧ i = p.count) := by
  rw [Pending.record] at h
  split at h
  · rw [List.getElem?_set] at h
    split at h
    · rename_i hi
      split at h
      · exact .inr ⟨(Option.some.inj h).symm, hi.symm⟩
      · cases h
    · exact .inl h
  · exact .inl h

theorem mem_live_record {p : Pending} {j k : ℕ} (h : k ∈ (p.record j).live) :
    k ∈ p.live ∨ k = j := by
  rw [Pending.live, Pending.record] at h
  split at h
  · obtain ⟨i, hi⟩ := List.mem_iff_getElem?.1 h
    rw [List.getElem?_take, List.getElem?_set] at hi
    split at hi
    · rename_i hn
      split at hi
      · split at hi
        · exact .inr (Option.some.inj hi).symm
        · cases hi
      · rename_i hne
        have hlt : i < p.count := by
          dsimp only at hn
          omega
        refine .inl (List.mem_iff_getElem?.2 ⟨i, ?_⟩)
        rw [Pending.live, List.getElem?_take, if_pos hlt, hi]
    · cases hi
  · exact .inl h

theorem Keeps.opened {c : Compiler} (hw : Weak c) (e : Exit) :
    Keeps [] (fun i => e = i) c ((c.jumped .jump).opened (c.code.length + 1) e) := by
  have hj := (Keeps.refl hw []).jumped .jump
  have hlen := Compiler.length_jumped c .jump
  have hsame : ∀ i, (c.jumped .jump).pending i = c.pending i := by rintro (_ | _) <;> rfl
  have hnew : c.code.length + 1 ∈ (c.jumped .jump).audit.jumps :=
    List.mem_append_right _ (List.mem_singleton_self _)
  have hslot : ∀ (i : Exit) (k j : ℕ),
      (((c.jumped .jump).opened (c.code.length + 1) e).pending i).jumps[k]? = some j →
        (c.pending i).jumps[k]? = some j ∨
          (e = i ∧ j = c.code.length + 1 ∧ k = (c.pending i).count) := by
    intro i k j hk
    rw [Compiler.opened_pending, hsame] at hk
    split at hk
    · rcases mem_slots_record hk with h | ⟨h, h'⟩
      · exact .inl h
      · exact .inr ⟨‹_›, h, h'⟩
    · exact .inl hk
  have hold : ∀ (i : Exit) (k j : ℕ), (c.pending i).jumps[k]? = some j → j ≤ c.code.length :=
    fun i k j hk => hw.bound i j (List.mem_iff_getElem?.2 ⟨k, hk⟩)
  refine ⟨⟨?_, ?_, ?_, fun i => ?_, fun i j hmem => ?_, fun i j hmem => ?_,
    fun i i' k k' j hk hk' => ?_⟩, ?_, by simpa using hj.loopStart, ?_, fun i k j hk => ?_,
    fun i hi => ?_, fun i hi hl hcount j hk => ?_, fun j hd _ => ?_⟩
  · simpa using hj.weak.pos
  · simpa using hj.weak.le_length
  · simpa using hj.weak.apart
  · rw [Compiler.opened_pending, hsame]
    split
    · rw [Pending.record]
      split
      · rw [List.length_set]
        exact hw.slots i
      · exact hw.slots i
    · exact hw.slots i
  · rw [Compiler.opened_code, hlen]
    obtain ⟨k, hk⟩ := List.mem_iff_getElem?.1 hmem
    rcases hslot i k j hk with hk | ⟨-, rfl, -⟩
    · have := hold i k j hk
      omega
    · omega
  · rw [Compiler.opened_pending, hsame] at hmem
    rw [Compiler.opened_jumps]
    split at hmem
    · rcases mem_live_record hmem with hmem | rfl
      · exact List.mem_append_left _ (hw.live i j hmem)
      · exact hnew
    · exact List.mem_append_left _ (hw.live i j hmem)
  · -- the new jump is beyond all that the slots had
    rcases hslot i k j hk with hk | ⟨rfl, rfl, rfl⟩ <;>
      rcases hslot i' k' _ hk' with hk' | ⟨rfl, hj', rfl⟩
    · exact hw.distinct i i' k k' j hk hk'
    · have := hold i k j hk
      omega
    · have := hold i' k' _ hk'
      omega
    · exact .inr ⟨rfl, rfl⟩
  · rw [Compiler.opened_code]
    omega
  · simpa using hj.jumps
  · rcases hslot i k j hk with hold' | ⟨-, hj', -⟩
    · exact .inl hold'
    · rw [Compiler.opened_jumps, hj']
      exact .inr ⟨Nat.lt_succ_self _, hnew⟩
  · rw [Compiler.opened_pending, if_neg (by simpa using hi), hsame]
  · obtain rfl : e = i := by simpa using hi
    rw [Compiler.opened_pending, if_pos rfl, hsame, Pending.record, hcount,
      if_pos (by decide), List.getElem?_set_self (by rw [hw.slots]; decide)] at hk
    rw [← Option.some.inj hk]
    exact Nat.lt_succ_self _
  · refine (hj.doomed j hd List.not_mem_nil).congr hj.weak ⟨[], by simp⟩ (by simp) (by simp) (fun i hi => ?_)
      (by simp)
    obtain ⟨k, hk⟩ := List.mem_iff_getElem?.1 hi
    rw [hsame]
    rcases hslot i k j hk with hk | ⟨-, hj', -⟩
    · exact List.mem_iff_getElem?.2 ⟨k, hk⟩
    · have := hw.le_length j hd.mem_jumps
      omega

theorem straight_tryDepth (c : Compiler) (n : ℕ) : Straight c { c with tryDepth := n } :=
  Straight.of_appends ⟨⟨[], by simp⟩, rfl, rfl, rfl, rfl, id⟩

theorem keeps_exit {c : Compiler} (hw : Weak c) (e : Exit) :
    Keeps [] (fun i => e = i) c (exec (emitExit e) c) := by
  rw [exec_emitExit]
  have h := (Keeps.refl hw []).straight (straight_popHandlers c)
  exact (h.trans (Keeps.opened h.weak e)).mono (by simp)

/-- Outside of loops a statement emits nothing. -/
theorem Keeps.outside {c : Compiler} (hw : Weak c) (hl : ¬0 ≤ c.loopStart)
    (uses : Exit → Bool) : Keeps [] uses c c :=
  { Keeps.refl hw [] with
    unused := fun _ _ => rfl
    used := fun _ _ hl' => absurd hl' hl }

theorem mem_jumps_jumped (c : Compiler) (o : Opcode) :
    c.code.length + 1 ∈ (c.jumped o).audit.jumps :=
  List.mem_append_right _ (List.mem_singleton_self _)

/-! ### The ends of loops -/

namespace Keeps

variable {spare : List ℕ} {uses : Exit → Bool} {c c' : Compiler} {j next : ℕ}

/-- The jump back of a loop, its exit and the value that is tested. -/
theorem exit (h : Keeps spare uses c c') (hw : Weak c) (hj : j ∈ c'.audit.jumps)
    (hne : j ∈ spare ∨ c.code.length < j)
    (herr : (exec (Slp.patchJump j) (exec (emitLoop c'.loopStart) c')).error = none) :
    Keeps spare uses c
      (exec (emitOp .pop) (exec (Slp.patchJump j) (exec (emitLoop c'.loopStart) c'))) := by
  have hloop := straight_emitLoop (error_of_patchJump herr)
  exact ((h.straight hloop).patchJump hw (by rwa [hloop.audit]) hne herr).straight
    (straight_emitOp .pop rfl _)

theorem endWhile (h : Keeps spare uses c c') (hw : Weak c) (hj : j ∈ c'.audit.jumps)
    (hne : j ∈ spare ∨ c.code.length < j) (herr : (exec (endWhile j) c').error = none) :
    Keeps spare uses c (exec (Slp.endWhile j) c') := by
  rw [exec_endWhile] at herr ⊢
  have herrp := error_of_patchContinues herr
  have herre := error_of_patchBreaks herrp
  rw [error_emitOp] at herre
  exact ((h.exit hw hj hne herre).patchBreaks hw herrp).patchContinues hw herr

theorem endFor (h : Keeps spare uses c c') (hw : Weak c) (hj : j ∈ c'.audit.jumps)
    (hne : j ∈ spare ∨ c.code.length < j) (herr : (exec (endFor j next) c').error = none) :
    Keeps spare uses c (exec (Slp.endFor j next) c') := by
  rw [exec_endFor] at herr ⊢
  have herrp := error_of_patchBreaks herr
  rw [error_writeContinues, error_emitOp] at herrp
  exact ((h.exit hw hj hne herrp).writeContinues hw _).patchBreaks hw herr

theorem endForever (h : Keeps spare uses c c') (hw : Weak c)
    (herr : (exec (endForever next) c').error = none) :
    Keeps spare uses c (exec (Slp.endForever next) c') := by
  rw [exec_endForever] at herr ⊢
  have herrp := error_of_patchBreaks herr
  rw [error_writeContinues] at herrp
  exact ((h.straight (straight_emitLoop herrp)).writeContinues hw _).patchBreaks hw herr

theorem endForeach (h : Keeps spare uses c c') (hw : Weak c) (hj : j ∈ c'.audit.jumps)
    (hne : j ∈ spare ∨ c.code.length < j) (herr : (exec (endForeach j) c').error = none) :
    Keeps spare uses c (exec (Slp.endForeach j) c') := by
  rw [exec_endForeach] at herr ⊢
  have herrj := error_of_patchBreaks herr
  have herrl := error_of_patchJump herrj
  have hloop := straight_emitLoop herrl
  have hcont := (Keeps.refl h.weak []).patchContinues h.weak (error_of_emitLoop herrl)
  have hend := (h.patchContinues hw (error_of_emitLoop herrl)).straight hloop
  exact (hend.patchJump hw (hloop.audit ▸ hcont.jumps j hj) hne herrj).patchBreaks hw herr

end Keeps

/-- Every shape keeps the invariant that is left, and saves no placeholder that is doomed. -/
theorem keeps_emit (s : Shape) {c : Compiler} (hw : Weak c)
    (herr : (exec s.emit c).error = none) : Keeps [] s.uses c (exec s.emit c) := by
  induction s generalizing c with
  | seq a b iha ihb =>
    rw [exec_seq] at herr ⊢
    have ha := iha hw (error_of_emit b herr)
    exact ha.trans (ihb ha.weak herr)
  | guard o ho a ih =>
    rw [exec_guard] at herr ⊢
    have hj := (Keeps.refl hw []).jumped o
    have ha := ih hj.weak (error_of_patchJump herr)
    exact ((hj.trans ha).patchJump hw (ha.jumps _ (mem_jumps_jumped c o))
      (.inr (Nat.lt_succ_self _)) herr).mono (by funext e; simp [Shape.uses])
  | branch o ho a b iha ihb =>
    rw [exec_branch] at herr ⊢
    have herrb := error_of_patchJump herr
    have herrj := error_of_emit b herrb
    have herra := error_of_patchJump herrj
    rw [error_jumped] at herra
    have hj := (Keeps.refl hw []).jumped o
    have ha := iha hj.weak herra
    have hca := hj.trans ha
    have hk := (hca.jumped .jump).patchJump hw
      (List.mem_append_left _ (ha.jumps _ (mem_jumps_jumped c o))) (.inr (Nat.lt_succ_self _)) herrj
    have hb := ihb hk.weak herrb
    have hmem : (exec a.emit (c.jumped o)).code.length + 1 ∈
        (exec (patchJump (c.code.length + 1))
          ((exec a.emit (c.jumped o)).jumped .jump)).audit.jumps := by
      rw [(patchJump_ok herrj).1]
      exact mem_jumps_jumped _ .jump
    have hlen := hca.length
    exact ((hk.trans hb).patchJump hw (hb.jumps _ hmem) (.inr (by omega)) herr).mono
      (by funext e; simp [Shape.uses])
  | inTry a ih =>
    rw [exec_inTry] at herr ⊢
    have hin := (Keeps.refl hw []).straight (straight_tryDepth c (c.tryDepth + 1))
    have ha := ih hin.weak herr
    exact ((hin.trans ha).straight (straight_tryDepth _ _)).mono
      (by funext e; simp [Shape.uses])
  | brk =>
    rw [exec_brk] at herr ⊢
    split
    · exact (keeps_exit hw .brk).mono (by funext e; cases e <;> rfl)
    · exact Keeps.outside hw ‹_› _
  | cont =>
    rw [exec_cont] at herr ⊢
    split
    · exact (keeps_exit hw .cont).mono (by funext e; cases e <;> rfl)
    · exact Keeps.outside hw ‹_› _
  | whileLoop o ho head body ihh ihb =>
    rw [exec_whileLoop, error_leave] at herr
    rw [exec_whileLoop]
    have herrb := error_of_endWhile herr
    have herrh := error_of_emit body herrb
    rw [error_emitOp, error_jumped] at herrh
    have hh := ihh hw.enterLoop herrh
    have hj := (hh.jumped o).straight (straight_emitOp .pop rfl _)
    have hb := ihb hj.weak herrb
    exact ((hj.trans hb).endWhile hw.enterLoop (hb.jumps _ (mem_jumps_jumped _ o))
      (.inr (Nat.lt_succ_of_le hh.length)) herr).leave hw _
  | forLoop head body step ihh ihb ihs =>
    rw [exec_forLoop, error_leave] at herr
    rw [exec_forLoop]
    have herrs := error_of_endFor herr
    have herrb := error_of_emit step herrs
    have herrh := error_of_emit body herrb
    rw [error_emitOp, error_jumped] at herrh
    have hh := ihh hw.enterLoop herrh
    have hj := (hh.jumped .jumpIfFalse).straight (straight_emitOp .pop rfl _)
    have hb := ihb hj.weak herrb
    have hs := ihs hb.weak herrs
    exact (((hj.trans hb).trans hs).endFor hw.enterLoop
      (hs.jumps _ (hb.jumps _ (mem_jumps_jumped _ .jumpIfFalse)))
      (.inr (Nat.lt_succ_of_le hh.length)) herr).leave hw _
  | foreverLoop body step ihb ihs =>
    rw [exec_foreverLoop, error_leave] at herr
    rw [exec_foreverLoop]
    have herrs := error_of_endForever herr
    have hb := ihb hw.enterLoop (error_of_emit step herrs)
    exact ((hb.trans (ihs hb.weak herrs)).endForever hw.enterLoop herr).leave hw _
  | foreachLoop o ho body ih =>
    rw [exec_foreachLoop, error_emitOp, error_emitOp, error_leave] at herr
    rw [exec_foreachLoop]
    have hj := (Keeps.refl hw.enterLoop []).jumped o
    have hb := ih hj.weak (error_of_endForeach herr)
    have hlast := (hj.trans hb).endForeach hw.enterLoop (hb.jumps _ (mem_jumps_jumped _ o))
      (.inr (Nat.lt_succ_self _)) herr
    exact (((hlast.leave hw _).straight (straight_emitOp .pop rfl _)).straight
      (straight_emitOp .pop rfl _)).mono (by funext e; simp [Shape.uses])
  | _ => exact (Keeps.refl hw []).straight (straight_of_leaf c trivial)

end Slp
