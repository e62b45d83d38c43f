import Slp.Vm.Control

/-!
# Fork isolation

While a fork is in progress `vm->globals` is the table of its child.  It is the table of the code
that runs as long as the frames of the parent are not entered again before the call in
`builtin_fork` returns, and no frame of the child is left when it does (`Contained`).  Then the
parent goes on with its own table, which has the bindings that it had (`isolated_of_run`).

A throw that a handler of the parent catches enters a frame of the parent in the loop of the fork
(`not_isolated_of_throw`); an error of the child leaves its frames to the loop of the parent.
-/

namespace Slp

namespace Control

namespace Machine

/-- The tables of the parents of the forks in progress. -/
def parents : List Loop → List Ref
  | [] => []
  | l :: loops =>
    match l.caller with
    | .fork f => f.parent :: parents loops
    | _ => parents loops

/-- The number of frames below the innermost fork in progress. -/
def forkBase : List Loop → Option ℕ
  | [] => none
  | l :: loops =>
    match l.caller with
    | .fork _ => some l.target
    | _ => forkBase loops

/-- The innermost loop is that of a fork. -/
def inFork (m : Machine) : Prop :=
  ∃ l loops f, m.loops = l :: loops ∧ l.caller = .fork f

/-- What can happen: an instruction of the current frame, or a new script. -/
def Legal (m : Machine) : Event → Prop
  | .interpret => m.loops = []
  | .fork _ child _ _ _ =>
    m.loops ≠ [] ∧ m.frames ≠ [] ∧ child ∉ m.globals :: parents m.loops
  | _ => m.loops ≠ [] ∧ m.frames ≠ []

/-- With `n` frames the code of the child still runs, or the fork returns. -/
def Stays (m : Machine) (base n : ℕ) : Prop := base < n ∨ base = n ∧ m.inFork

/-- The condition on an instruction while a fork with `base` frames below it is in progress. -/
def ContainedIn (m : Machine) (base : ℕ) : Event → Prop
  | .throw =>
    if m.handlerCount = 0 then ¬m.inFork else base < m.handlers (m.handlerCount - 1)
  | .opReturn => m.Stays base (m.frames.length - 1)
  | .abort => m.Stays base (m.frames.length - 1)
  | .inlineReturn => m.Stays base m.rootIndex
  | .yield => m.Stays base m.rootIndex
  | .exit => m.Stays base (min m.target m.frames.length)
  | .callcc none => base < m.rootIndex
  | .callcc (some a) => base < m.rootIndex ∨ base = m.rootIndex ∧ a.inlines ≠ []
  | .returnTo k => Extends k
  | .invoke k => Extends k
  | .done => ¬m.inFork
  | .error => ¬m.inFork
  | _ => True
where
  /-- The continuation was captured by the child, above the frames that are below it now. -/
  Extends (k : Copy) : Prop :=
    k.frames.take base = m.frames.take base ∧ base < k.frames.length ∧
      ∀ f ∈ k.frames.drop base, f.owner = m.globals

/-- The condition: control stays in the child until its fork returns, and continuations are called
by the code that captured them. -/
def Contained (m : Machine) (e : Event) : Prop :=
  match forkBase m.loops with
  | some base => m.ContainedIn base e
  | none =>
    match e with
    | .returnTo k => ∀ f ∈ k.frames, f.owner = m.globals
    | .invoke k => ∀ f ∈ k.frames, f.owner = m.globals
    | _ => True

/-- The machine of a new script. -/
def start (globals : Ref) (tables : Ref → Table) : Machine where
  frames := []
  handlers := fun _ => 0
  handlerCount := 0
  globals
  tables
  loops := []

/-- A run from the host on, all of whose instructions meet the condition `ok`. -/
inductive Run (ok : Machine → Event → Prop) : Machine → Prop
  | start (globals : Ref) (tables : Ref → Table) : Run ok (start globals tables)
  | step {m : Machine} (hrun : Run ok m) (e : Event) (hlegal : m.Legal e) (hok : ok m e) :
    Run ok (m.step e)

/-- The code that runs sees its own globals. -/
def Isolated (m : Machine) : Prop :=
  m.loops ≠ [] → ∀ f ∈ m.frames.getLast?, f.owner = m.globals

/-- The instruction ends the innermost call, which is that of the fork `f`. -/
def Returns (m : Machine) (e : Event) (f : Fork) : Prop :=
  ∃ target, m.loops = ⟨target, .fork f⟩ :: (m.step e).loops

/-! ### The frames of parents and children -/

/-- The frames above the innermost fork belong to its child, whose table is the current one; those
below it are layered with the table of the parent, which has the bindings that it had. -/
def Layered (tables : Ref → Table) : List Loop → Ref → List Frame → Prop
  | [], globals, frames => ∀ f ∈ frames, f.owner = globals
  | l :: loops, globals, frames =>
    match l.caller with
    | .plain => Layered tables loops globals frames
    | .restoring frameCount _ =>
      (∀ base ∈ forkBase loops, base < frameCount) ∧ Layered tables loops globals frames
    | .fork f =>
      l.target < frames.length ∧ (∀ g ∈ frames.drop l.target, g.owner = globals) ∧
        tables f.parent = f.before ∧ Layered tables loops f.parent (frames.take l.target)

/-- The frames that go with the same layers below the innermost fork. -/
def Replaces (loops : List Loop) (globals : Ref) (frames frames' : List Frame) : Prop :=
  match forkBase loops with
  | some base => frames'.take base = frames.take base ∧ base < frames'.length ∧
      ∀ f ∈ frames'.drop base, f.owner = globals
  | none => ∀ f ∈ frames', f.owner = globals

section Layered

variable {tables : Ref → Table} {loops : List Loop} {globals : Ref} {frames frames' : List Frame}

theorem Layered.base_lt (h : Layered tables loops globals frames) {base : ℕ}
    (hbase : forkBase loops = some base) : base < frames.length := by
  induction loops with
  | nil => cases hbase
  | cons l loops ih =>
    obtain ⟨target, caller⟩ := l
    cases caller with
    | plain => exact ih h hbase
    | restoring => exact ih h.2 hbase
    | fork f =>
      cases hbase
      exact h.1

/-- The frames that run have the current table. -/
theorem Layered.owner (h : Layered tables loops globals frames) :
    match forkBase loops with
    | some base => ∀ f ∈ frames.drop base, f.owner = globals
    | none => ∀ f ∈ frames, f.owner = globals := by
  induction loops with
  | nil => exact h
  | cons l loops ih =>
    obtain ⟨target, caller⟩ := l
    cases caller with
    | plain => exact ih h
    | restoring => exact ih h.2
    | fork f => exact h.2.1

theorem Layered.getLast? (h : Layered tables loops globals frames) :
    ∀ f ∈ frames.getLast?, f.owner = globals := by
  intro f hf
  have howner := h.owner
  cases hbase : forkBase loops with
  | none =>
    rw [hbase] at howner
    exact howner f (List.mem_of_getLast? hf)
  | some base =>
    rw [hbase] at howner
    have hlt := h.base_lt hbase
    refine howner f (List.mem_of_getLast? ?_)
    rw [List.getLast?_drop, if_neg (by omega)]
    exact hf

theorem Layered.replace (h : Layered tables loops globals frames)
    (hr : Replaces loops globals frames frames') : Layered tables loops globals frames' := by
  induction loops with
  | nil => exact hr
  | cons l loops ih =>
    obtain ⟨target, caller⟩ := l
    cases caller with
    | plain => exact ih h hr
    | restoring => exact ⟨h.1, ih h.2 hr⟩
    | fork f =>
      obtain ⟨htake, hlt, hdrop⟩ := hr
      obtain ⟨-, -, hbefore, hbelow⟩ := h
      refine ⟨hlt, hdrop, hbefore, ?_⟩
      rw [htake]
      exact hbelow

/-- A write to a table that is none of the parents'. -/
theorem Layered.update {r : Ref} (hr : r ∉ parents loops)
    (h : Layered tables loops globals frames) (t : Table) :
    Layered (Function.update tables r t) loops globals frames := by
  induction loops generalizing globals frames with
  | nil => exact h
  | cons l loops ih =>
    obtain ⟨target, caller⟩ := l
    cases caller with
    | plain => exact ih hr h
    | restoring => exact ⟨h.1, ih hr h.2⟩
    | fork f =>
      obtain ⟨hlt, hdrop, hbefore, hbelow⟩ := h
      obtain ⟨hne, hr⟩ : r ≠ f.parent ∧ r ∉ parents loops := by simpa [parents] using hr
      refine ⟨hlt, hdrop, ?_, ih hr hbelow⟩
      rw [Function.update_of_ne (Ne.symm hne)]
      exact hbefore

/-- The frames from `n` on are left. -/
theorem Layered.replaces_take (h : Layered tables loops globals frames) {n : ℕ}
    (hn : ∀ base ∈ forkBase loops, base < n) : Replaces loops globals frames (frames.take n) := by
  have howner := h.owner
  unfold Replaces
  cases hbase : forkBase loops with
  | none =>
    rw [hbase] at howner
    exact fun f hf => howner f (List.mem_of_mem_take hf)
  | some base =>
    rw [hbase] at howner
    have hlt := h.base_lt hbase
    have hbn := hn base hbase
    refine ⟨?_, ?_, ?_⟩
    · rw [List.take_take, min_eq_left hbn.le]
    · rw [List.length_take]
      exact lt_min hbn hlt
    · intro f hf
      rw [List.drop_take] at hf
      exact howner f (List.mem_of_mem_take hf)

/-- Frames of the current table are entered. -/
theorem Layered.replaces_append (h : Layered tables loops globals frames) {new : List Frame}
    (hnew : ∀ f ∈ new, f.owner = globals) : Replaces loops globals frames (frames ++ new) := by
  have howner := h.owner
  unfold Replaces
  cases hbase : forkBase loops with
  | none =>
    rw [hbase] at howner
    intro f hf
    rcases List.mem_append.1 hf with hf | hf
    · exact howner f hf
    · exact hnew f hf
  | some base =>
    rw [hbase] at howner
    have hlt := h.base_lt hbase
    refine ⟨List.take_append_of_le_length hlt.le, ?_, ?_⟩
    · rw [List.length_append]
      omega
    · intro f hf
      rw [List.drop_append_of_le_length hlt.le] at hf
      rcases List.mem_append.1 hf with hf | hf
      · exact howner f hf
      · exact hnew f hf

end Layered

/-! ### The invariant -/

/-- The frames are layered, and no table is used twice. -/
structure Invariant (m : Machine) : Prop where
  layered : Layered m.tables m.loops m.globals m.frames
  nodup : (m.globals :: parents m.loops).Nodup

section Invariant

variable {m : Machine}

/-- The same loops and tables with other frames. -/
theorem Invariant.replace (h : Invariant m) {m' : Machine} (htables : m'.tables = m.tables)
    (hloops : m'.loops = m.loops) (hglobals : m'.globals = m.globals)
    (hr : Replaces m.loops m.globals m.frames m'.frames) : Invariant m' := by
  refine ⟨?_, ?_⟩
  · rw [htables, hloops, hglobals]
    exact h.layered.replace hr
  · rw [hloops, hglobals]
    exact h.nodup

theorem Invariant.owner (h : Invariant m) : m.owner = m.globals := by
  unfold Machine.owner
  cases hlast : m.frames.getLast? with
  | none => rfl
  | some f => exact h.layered.getLast? f hlast

theorem Invariant.leave (h : Invariant m) {n : ℕ} (hn : ∀ base ∈ forkBase m.loops, base < n) :
    Invariant (m.leave n) :=
  h.replace rfl rfl rfl (h.layered.replaces_take hn)

theorem Invariant.enter (h : Invariant m) (a : Activation) : Invariant (m.enter m.globals a) := by
  refine h.replace rfl rfl rfl (h.layered.replaces_append ?_)
  intro f hf
  obtain ⟨b, -, rfl⟩ := List.mem_map.1 hf
  rfl

/-- A call that is not a fork's returns. -/
theorem Invariant.finish (h : Invariant m) (hfork : ¬m.inFork) : Invariant m.finish := by
  unfold Machine.finish
  obtain ⟨frames, handlers, handlerCount, globals, tables, loops⟩ := m
  cases loops with
  | nil => exact h
  | cons l loops =>
    obtain ⟨target, caller⟩ := l
    cases caller with
    | plain => exact ⟨h.layered, h.nodup⟩
    | restoring frameCount count =>
      obtain ⟨hcount, hlayered⟩ := h.layered
      exact ⟨hlayered.replace (hlayered.replaces_take hcount), h.nodup⟩
    | fork f => exact absurd ⟨_, _, f, rfl, rfl⟩ hfork

/-- The call of a fork returns, with the frames of the parent. -/
theorem Invariant.finish_fork (h : Invariant m) {target : ℕ} {f : Fork} {loops : List Loop}
    (hloops : m.loops = ⟨target, .fork f⟩ :: loops) (count : ℕ) :
    Invariant { m with frames := m.frames.take target, handlerCount := count }.finish := by
  obtain ⟨frames, handlers, handlerCount, globals, tables, loops'⟩ := m
  subst hloops
  obtain ⟨-, -, -, hbelow⟩ := h.layered
  have hnodup : (globals :: f.parent :: parents loops).Nodup := h.nodup
  exact ⟨hbelow, hnodup.of_cons⟩

/-- Frames are left, and the loop ends if its target is reached. -/
theorem Invariant.settle (h : Invariant m) {n : ℕ} (hn : n ≤ m.frames.length)
    (hstays : ∀ base ∈ forkBase m.loops, m.Stays base n) (atZero : Bool) :
    Invariant ((m.leave n).settle atZero) := by
  have hlen : (m.leave n).frames.length = n := by
    show (m.frames.take n).length = n
    rw [List.length_take, min_eq_left hn]
  by_cases hfork : m.inFork
  · obtain ⟨l, loops, f, hloops, hcaller⟩ := id hfork
    obtain ⟨target, caller⟩ := l
    subst hcaller
    have hbase : forkBase m.loops = some target := by rw [hloops]; rfl
    have htarget : (m.leave n).target = target := by
      show (m.loops.head?.map (·.target)).getD 0 = target
      rw [hloops]
      rfl
    rcases hstays target hbase with hlt | ⟨heq, -⟩
    · -- the child goes on
      have hno : ¬((m.leave n).frames.length = (m.leave n).target ∨
          atZero ∧ (m.leave n).frames.length = 0) := by
        rw [hlen, htarget]
        rintro (hat | ⟨-, hzero⟩) <;> omega
      rw [Machine.settle, if_neg hno]
      refine h.leave fun base hb => ?_
      rw [hbase] at hb
      cases hb
      exact hlt
    · rw [Machine.settle, if_pos (.inl (hlen.trans (heq.symm.trans htarget.symm)))]
      rw [Machine.leave, ← heq]
      exact h.finish_fork hloops _
  · have hleave : Invariant (m.leave n) := h.leave fun base hb => by
      rcases hstays base hb with hlt | ⟨-, hin⟩
      · exact hlt
      · exact absurd hin hfork
    unfold Machine.settle
    split_ifs
    · exact hleave.finish hfork
    · exact hleave

theorem Contained.containedIn {e : Event} (hc : m.Contained e) {base : ℕ}
    (hbase : base ∈ forkBase m.loops) : m.ContainedIn base e := by
  unfold Contained at hc
  rw [Option.mem_def.1 hbase] at hc
  exact hc

/-- An instruction that the condition keeps out of the loop of a fork. -/
theorem not_inFork {e : Event} (hc : m.Contained e)
    (he : ∀ base, m.ContainedIn base e → ¬m.inFork) : ¬m.inFork := by
  rintro ⟨⟨target, caller⟩, loops, f, hloops, hcaller⟩
  have hbase : target ∈ forkBase m.loops := by
    rw [hloops]
    cases hcaller
    rfl
  exact he target (hc.containedIn hbase) ⟨_, _, f, hloops, hcaller⟩

/-- A continuation is called by the code that captured it. -/
theorem Invariant.restore (h : Invariant m) {k : Copy} {e : Event} (hc : m.Contained e)
    (he : e = .invoke k ∨ e = .returnTo k) : Invariant (m.restore k) := by
  refine h.replace rfl rfl rfl ?_
  unfold Contained at hc
  unfold Replaces
  cases hbase : forkBase m.loops with
  | none =>
    rw [hbase] at hc
    rcases he with rfl | rfl
    · exact hc
    · exact hc
  | some base =>
    rw [hbase] at hc
    rcases he with rfl | rfl
    · exact hc
    · exact hc

theorem Invariant.exit (h : Invariant m) (hc : m.Contained .exit) :
    Invariant (m.step .exit) := by
  by_cases hfork : m.inFork
  · obtain ⟨⟨target, caller⟩, loops, f, hloops, hcaller⟩ := hfork
    cases hcaller
    have hlt : target < m.frames.length := h.layered.base_lt (by rw [hloops]; rfl)
    have htarget : m.target = target := by rw [Machine.target, hloops]; rfl
    show Invariant (m.leave (min m.target m.frames.length)).finish
    rw [htarget, min_eq_left hlt.le]
    exact h.finish_fork hloops _
  · refine Invariant.finish (h.leave fun base hbase => ?_) hfork
    rcases hc.containedIn hbase with hlt | ⟨-, hin⟩
    · exact hlt
    · exact absurd hin hfork

/-- The handler of a callcc runs above the frames of the parent. -/
theorem Invariant.callcc (h : Invariant m) {a : Activation} (hc : m.Contained (.callcc (some a))) :
    Invariant (m.step (.callcc (some a))) := by
  have howner := h.layered.owner
  have hnew : ∀ f ∈ a.inlines.map (⟨·, m.globals⟩ : Bool → Frame), f.owner = m.globals := by
    intro f hf
    obtain ⟨b, -, rfl⟩ := List.mem_map.1 hf
    rfl
  show Invariant ((m.leave m.rootIndex).enter m.owner a)
  rw [h.owner]
  cases hbase : forkBase m.loops with
  | none =>
    exact (h.leave fun base hb => by rw [hbase] at hb; cases hb).enter a
  | some base =>
    rcases hc.containedIn hbase with hlt | ⟨heq, hsome⟩
    · refine (h.leave fun base' hb => ?_).enter a
      rw [hbase] at hb
      cases hb
      exact hlt
    · -- only the handler is left above them
      have hlt := h.layered.base_lt hbase
      have hlen : (m.frames.take base).length = base := by
        rw [List.length_take, min_eq_left hlt.le]
      have hframes : ((m.leave m.rootIndex).enter m.globals a).frames =
          m.frames.take base ++ a.inlines.map (⟨·, m.globals⟩ : Bool → Frame) := by
        rw [heq]
        rfl
      refine h.replace rfl rfl rfl ?_
      unfold Replaces
      rw [hbase, hframes]
      refine ⟨List.take_left' hlen, ?_, ?_⟩
      · have hpos : 0 < a.inlines.length := List.length_pos_iff.2 hsome
        rw [List.length_append, hlen, List.length_map]
        omega
      · rw [List.drop_left' hlen]
        exact hnew

/-- A native function calls back. -/
theorem Invariant.callback (h : Invariant m) (a : Activation) (restoring : Bool) :
    Invariant (m.step (.callback a restoring)) := by
  have henter : Invariant (m.enter m.owner a) := by
    rw [h.owner]
    exact h.enter a
  cases restoring with
  | false => exact ⟨henter.layered, henter.nodup⟩
  | true => exact ⟨⟨fun base hbase => h.layered.base_lt hbase, henter.layered⟩, henter.nodup⟩

theorem Invariant.fork (h : Invariant m) {child : Ref} (hchild : child ∉ m.globals :: parents m.loops)
    (isInline : Bool) (clone : Value → Value) (handle : Value)
    (arguments : List (Bytes × Value)) :
    Invariant (m.step (.fork isInline child clone handle arguments)) := by
  obtain ⟨hne, hfresh⟩ : child ≠ m.globals ∧ child ∉ parents m.loops := by simpa using hchild
  have htarget : (m.frames ++ [(⟨isInline, child⟩ : Frame)]).length - 1 = m.frames.length := by
    rw [List.length_append, List.length_singleton, Nat.add_sub_cancel]
  have hloops : (m.step (.fork isInline child clone handle arguments)).loops =
      ⟨m.frames.length, .fork ⟨m.globals, child, m.tables m.globals⟩⟩ :: m.loops := by
    show (⟨(m.frames ++ [(⟨isInline, child⟩ : Frame)]).length - 1, _⟩ : Loop) :: _ = _
    rw [htarget]
  have hframes : (m.step (.fork isInline child clone handle arguments)).frames =
      m.frames ++ [⟨isInline, child⟩] := rfl
  refine ⟨?_, ?_⟩
  · rw [hloops, hframes]
    refine ⟨?_, ?_, Function.update_of_ne (Ne.symm hne) _ _, ?_⟩
    · rw [List.length_append]
      exact Nat.lt_succ_self _
    · rw [List.drop_left]
      intro g hg
      rw [List.mem_singleton.1 hg]
      rfl
    · rw [List.take_left]
      exact h.layered.update hfresh _
  · rw [hloops]
    exact List.nodup_cons.2 ⟨hchild, h.nodup⟩

theorem rootIndexFrom_le (frames : List Frame) (i : ℕ) : rootIndexFrom frames i ≤ i := by
  induction i with
  | zero => exact Nat.le_refl _
  | succ i ih =>
    rw [rootIndexFrom]
    split_ifs
    · exact ih.trans (Nat.le_succ i)
    · exact Nat.le_refl _

theorem rootIndex_le (m : Machine) : m.rootIndex ≤ m.frames.length :=
  (rootIndexFrom_le _ _).trans (Nat.sub_le _ _)

/-- What an instruction keeps. -/
theorem Invariant.step (h : Invariant m) {e : Event} (hlegal : m.Legal e) (hc : m.Contained e) :
    Invariant (m.step e) := by
  cases e with
  | data t =>
    have hfresh : m.globals ∉ parents m.loops := (List.nodup_cons.1 h.nodup).1
    exact ⟨h.layered.update hfresh t, h.nodup⟩
  | call a =>
    show Invariant (m.enter m.owner a)
    rw [h.owner]
    exact h.enter a
  | pushHandler =>
    show Invariant (if _ then _ else m)
    split_ifs
    · exact ⟨h.layered, h.nodup⟩
    · exact h
  | popHandler => exact ⟨h.layered, h.nodup⟩
  | throw =>
    show Invariant (if _ then _ else _)
    split_ifs with hcount
    · refine h.finish (not_inFork hc fun base hin => ?_)
      rwa [ContainedIn, if_pos hcount] at hin
    · refine h.replace rfl rfl rfl (h.layered.replaces_take fun base hbase => ?_)
      have hin := hc.containedIn hbase
      rwa [ContainedIn, if_neg hcount] at hin
  | opReturn => exact h.settle (Nat.sub_le _ _) (fun base hbase => hc.containedIn hbase) true
  | returnTo k =>
    have hrestore := h.restore hc (.inr rfl)
    exact ⟨hrestore.layered, hrestore.nodup⟩
  | inlineReturn => exact h.settle m.rootIndex_le (fun base hbase => hc.containedIn hbase) true
  | yield => exact h.settle m.rootIndex_le (fun base hbase => hc.containedIn hbase) false
  | callcc handler =>
    cases handler with
    | none => exact h.leave fun base hbase => hc.containedIn hbase
    | some a => exact h.callcc hc
  | invoke k => exact h.restore hc (.inl rfl)
  | abort => exact h.settle (Nat.sub_le _ _) (fun base hbase => hc.containedIn hbase) false
  | exit => exact h.exit hc
  | done => exact h.finish (not_inFork hc fun base hin => hin)
  | error => exact h.finish (not_inFork hc fun base hin => hin)
  | callback a restoring => exact h.callback a restoring
  | fork isInline child clone handle arguments =>
    exact h.fork hlegal.2.2 isInline clone handle arguments
  | interpret =>
    have hnil : m.loops = [] := hlegal
    refine ⟨?_, ?_⟩
    · show ∀ f ∈ [(⟨false, m.globals⟩ : Frame)], f.owner = m.globals
      simp
    · simp [parents, Machine.step]

theorem Run.invariant (hrun : Run Contained m) : Invariant m := by
  induction hrun with
  | start globals tables =>
    exact ⟨fun f hf => (List.not_mem_nil hf).elim, by simp [parents, Machine.start]⟩
  | step _ e hlegal hok ih => exact ih.step hlegal hok

end Invariant

/-! ### The return of a fork -/

section Returns

variable {m : Machine} {f : Fork} {target : ℕ} {loops : List Loop}

theorem finish_fork (hloops : m.loops = ⟨target, .fork f⟩ :: loops) :
    m.finish.globals = f.parent ∧ m.finish.tables = m.tables := by
  rw [Machine.finish, hloops]
  exact ⟨rfl, rfl⟩

theorem settle_fork {atZero : Bool}
    (hloops : m.loops = ⟨target, .fork f⟩ :: (m.settle atZero).loops) :
    (m.settle atZero).globals = f.parent ∧ (m.settle atZero).tables = m.tables := by
  rw [Machine.settle] at hloops ⊢
  split_ifs at hloops ⊢ with hdone
  · exact finish_fork hloops
  · simp at hloops

/-- A call returns to the parent of its fork only by `finish`. -/
theorem Returns.step {e : Event} (h : m.Returns e f) (hlegal : m.Legal e) :
    (m.step e).globals = f.parent ∧ (m.step e).tables = m.tables := by
  obtain ⟨target, hloops⟩ := h
  cases e with
  | opReturn => exact settle_fork (m := m.leave _) hloops
  | inlineReturn => exact settle_fork (m := m.leave _) hloops
  | yield => exact settle_fork (m := m.leave _) hloops
  | abort => exact settle_fork (m := m.leave _) hloops
  | exit => exact finish_fork (m := m.leave _) hloops
  | done => exact finish_fork hloops
  | error => exact finish_fork hloops
  | throw =>
    rw [Machine.step] at hloops ⊢
    split_ifs at hloops ⊢ with hcount
    · exact finish_fork hloops
    · simp at hloops
  | pushHandler =>
    rw [Machine.step] at hloops
    split_ifs at hloops <;> simp at hloops
  | callcc handler =>
    cases handler <;> simp [Machine.step, leave, enter] at hloops
  | interpret =>
    rw [show m.loops = [] from hlegal] at hloops
    cases hloops
  | callback a restoring =>
    have hlen := congrArg List.length hloops
    simp [Machine.step, callVm] at hlen
    omega
  | fork isInline child clone handle arguments =>
    have hlen := congrArg List.length hloops
    simp [Machine.step, callVm] at hlen
    omega
  | _ => simp [Machine.step, enter, leave, restore] at hloops

end Returns

/-- **Fork isolation.**  In a run in which control stays in a child until its fork returns, the code
that runs sees its own globals; a fork returns to the table of the parent, and this has the bindings
that it had. -/
theorem isolated_of_run {m : Machine} (hrun : Run Contained m) :
    m.Isolated ∧ ∀ e f, m.Legal e → m.Contained e → m.Returns e f →
      (m.step e).Isolated ∧ (m.step e).globals = f.parent ∧
        (m.step e).tables f.parent = f.before := by
  have hinv := hrun.invariant
  refine ⟨fun _ => hinv.layered.getLast?, fun e f hlegal hcontained hreturns => ?_⟩
  obtain ⟨hglobals, htables⟩ := hreturns.step hlegal
  have hafter := (hrun.step e hlegal hcontained).invariant
  refine ⟨fun _ => hafter.layered.getLast?, hglobals, ?_⟩
  obtain ⟨target, hloops⟩ := hreturns
  have hlayered := hinv.layered
  rw [hloops] at hlayered
  rw [htables]
  exact hlayered.2.2.1

/-- A script with the globals at 0 forks a closure whose globals are at 1. -/
def forked : Machine :=
  ((start 0 fun _ _ => none).step .interpret).step (.fork false 1 id .null [])

theorem isolated_of_run_forked : forked.Isolated ∧ (forked.step .opReturn).globals = 0 := by
  have hscript : Run Contained ((start 0 fun _ _ => none).step .interpret) :=
    (Run.start 0 fun _ _ => none).step .interpret rfl trivial
  have hforked : Run Contained forked :=
    hscript.step _ (by simp [Legal, start, Machine.step, parents]) trivial
  obtain ⟨hisolated, hreturn⟩ := isolated_of_run hforked
  have hlegal : forked.Legal .opReturn := by
    simp [Legal, forked, start, Machine.step, callVm, enter]
  have hstays : forked.Contained .opReturn := .inr ⟨rfl, _, _, _, rfl, rfl⟩
  exact ⟨hisolated, (hreturn .opReturn ⟨0, 1, fun _ => none⟩ hlegal hstays ⟨1, rfl⟩).2.1⟩

/-- `try { fork({ throw "x"; }); } catch $e { }`: the handler of the script runs with the globals of
the child. -/
theorem not_isolated_of_throw : ¬∀ m, Run (fun _ _ => True) m → m.Isolated := by
  intro hall
  have hscript : Run (fun _ _ => True) ((start 0 fun _ _ => none).step .interpret) :=
    (Run.start 0 fun _ _ => none).step .interpret rfl trivial
  have htry := hscript.step .pushHandler (by simp [Legal, start, Machine.step]) trivial
  have hfork := htry.step (.fork false 1 id .null [])
    (by simp [Legal, start, Machine.step, maxHandlers, parents]) trivial
  have hthrow := hfork.step .throw
    (by simp [Legal, start, Machine.step, maxHandlers, callVm, enter]) trivial
  have howner := hall _ hthrow (by simp [start, Machine.step, maxHandlers, callVm, enter])
    ⟨false, 0⟩ (by simp [start, Machine.step, maxHandlers, callVm, enter])
  simp [start, Machine.step, maxHandlers, callVm, enter] at howner

end Machine

end Control

end Slp
