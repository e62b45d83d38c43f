import Slp.Compiler.Run
import Mathlib.Data.List.Nodup
import Mathlib.Data.List.Perm.Subperm

/-!
# Assignment to a tuple

`(a, b, …) = value`: the code the compiler writes after that of the right side, and what it does.
Each variable gets its element of the value, from left to right; the code has no jump, so that the
right side is evaluated once and first.

An element that is no name is dropped without an error, and so a tuple with an index path among
its elements does not assign all of them (`tupleAssigns_iff`).
-/

namespace Slp

/-! ### One element -/

/-- The code of an element that is a name. -/
def elementInstrs (c : Compiler) (i : ℕ) (name : Bytes) : List Instr :=
  [.dup, .pushConst (constantIndex c.constants (.num i)), .tupleGet,
    variableInstr { c with constants := insertConstant c.constants (.num i) } name true, .pop]

/-- The constants after an element. -/
def elementConstants (locals : List (Option Bytes)) (cs : List Constant) (element : Node × ℕ) :
    List Constant :=
  match element.1.assignedName? with
  | none => cs
  | some name =>
    match resolveLocal locals name with
    | some _ => insertConstant cs (.num element.2)
    | none => insertConstant (insertConstant cs (.num element.2)) (.string name)

/-- The constants after the elements of a tuple. -/
def tupleConstants (c : Compiler) (elements : List (Node × ℕ)) : List Constant :=
  elements.foldl (elementConstants c.locals) c.constants

section

variable {c : Compiler} {element : Node} {name : Bytes} {single : Bool} {i : ℕ}

theorem emitTupleElement_none (h : element.assignedName? = none) :
    exec (emitTupleElement .equal single i element) c = c := by
  rw [emitTupleElement, h]
  rfl

theorem emitTupleElement_some (h : element.assignedName? = some name) :
    exec (emitTupleElement .equal single i element) c =
      exec (emitOp .pop) (exec (namedVariable name true) (exec (emitOp .tupleGet)
        (exec (emitConstant (.num i)) (exec (emitOp .dup) c)))) := by
  rw [emitTupleElement, h]
  rfl

theorem elementConstants_eq (h : element.assignedName? = some name) :
    elementConstants c.locals c.constants (element, i) =
      variableConstants { c with constants := insertConstant c.constants (.num i) } name := by
  cases hr : resolveLocal c.locals name <;> simp only [elementConstants, variableConstants, h, hr]

/-- What is written for an element that is a name. -/
theorem writes_element (h : element.assignedName? = some name)
    (he : (exec (emitTupleElement .equal single i element) c).error = none) :
    constantIndex c.constants (.num i) < 65536 ∧
      Writes c (exec (emitTupleElement .equal single i element) c) (elementInstrs c i name) ∧
      (exec (emitTupleElement .equal single i element) c).constants =
        elementConstants c.locals c.constants (element, i) := by
  rw [emitTupleElement_some h] at he ⊢
  rw [error_emitOp] at he
  replace he := (straight_variable name true _).error he
  rw [error_emitOp] at he
  obtain ⟨hlt, hpush, htable⟩ := emitConstant_ok he
  set c₂ := exec (emitConstant (.num i)) (exec (emitOp .dup) c) with hc₂
  have hdup := writes_emitOp .dup rfl c
  have hget := writes_emitOp .tupleGet rfl c₂
  have hstore := writes_namedVariable name true (exec (emitOp .tupleGet) c₂)
  have hpop := writes_emitOp .pop rfl (exec (namedVariable name true) (exec (emitOp .tupleGet) c₂))
  have hlocals : c₂.locals = c.locals := hpush.locals.trans hdup.locals
  have hinstr : variableInstr (exec (emitOp .tupleGet) c₂) name true =
      variableInstr { c with constants := insertConstant c.constants (.num i) } name true := by
    simp only [variableInstr, exec_emitOp, hlocals, htable]
  rw [hinstr] at hstore
  refine ⟨hlt, (((hdup.trans hpush).trans hget).trans hstore).trans hpop, ?_⟩
  change (exec (namedVariable name true) (exec (emitOp .tupleGet) c₂)).constants = _
  rw [constants_namedVariable, elementConstants_eq h]
  simp only [variableConstants, exec_emitOp, hlocals, htable]

end

/-! ### The elements -/

/-- The code of the elements. -/
def emitElements (single : Bool) (elements : List (Node × ℕ)) : Emit Unit :=
  elements.forM fun (element, i) => emitTupleElement .equal single i element

theorem error_of_emitElements {single : Bool} {elements : List (Node × ℕ)} {c : Compiler}
    (h : (exec (emitElements single elements) c).error = none) : c.error = none := by
  rw [emitElements, ← Shape.emit_tupleElements] at h
  exact error_of_emit _ h

namespace Machine

variable {V S : Type} (M : Machine V S)

/-- What the code of the elements does: the elements that are names are stored, the others are
not there. -/
def storeElements (c : Compiler) (v : V) : List (Node × ℕ) → S → S
  | [], s => s
  | (element, i) :: rest, s =>
    match element.assignedName? with
    | none => storeElements c v rest s
    | some name => storeElements c v rest
        (M.storeVariable c name (M.tupleGet v (M.index (M.constant (.num i))) s) s)

variable {c : Compiler} {name : Bytes} {i : ℕ} {cs : List Constant}

theorem steps_element
    (hp : variableConstants { c with constants := insertConstant c.constants (.num i) } name <+: cs)
    {v : V} {stack : List V} (hroom : stack.length + 2 < M.stackMax) (s : S) :
    M.steps cs (elementInstrs c i name) (v :: stack) s = .ok (v :: stack,
      M.storeVariable { c with constants := insertConstant c.constants (.num i) } name
        (M.tupleGet v (M.index (M.constant (.num i))) s) s) := by
  have hnum : insertConstant c.constants (.num i) <+: cs :=
    (prefix_variableConstants _ name).trans hp
  have hdup : M.step cs .dup (v :: stack) s = .ok (v :: v :: stack, s) :=
    M.push_of_lt (by simp only [List.length_cons]; omega)
  have hpush := M.step_pushConst (getElem?_insertConstant (Constant.equal_num i) hnum)
    (v :: v :: stack) s
  rw [M.push_of_lt (by simp only [List.length_cons]; omega)] at hpush
  have hget : M.step cs .tupleGet (M.constant (.num i) :: v :: v :: stack) s =
      .ok (M.tupleGet v (M.index (M.constant (.num i))) s :: v :: stack, s) :=
    M.push_of_lt (by simp only [List.length_cons]; omega)
  rw [elementInstrs, M.steps_of_ok hdup, M.steps_of_ok hpush, M.steps_of_ok hget,
    M.steps_of_ok (M.step_store hp _ (v :: stack) s)]
  rfl

end Machine

/-- What is written for the elements, and what it does in every chunk that holds it. -/
theorem writes_elements {single : Bool} {elements : List (Node × ℕ)} {c : Compiler}
    (he : (exec (emitElements single elements) c).error = none) :
    (exec (emitElements single elements) c).constants = tupleConstants c elements ∧
      (∀ e ∈ elements, e.1.assignedName? ≠ none →
        ∃ k < 65536, (tupleConstants c elements)[k]? = some (.num e.2)) ∧
      ∃ is, Writes c (exec (emitElements single elements) c) is ∧
        ∀ (V S : Type) (M : Machine V S) (c' : Compiler) (cs : List Constant)
          (v : V) (stack : List V) (s : S), c'.locals = c.locals →
          tupleConstants c elements <+: c'.constants → tupleConstants c elements <+: cs →
          stack.length + 2 < M.stackMax →
          M.steps cs is (v :: stack) s = .ok (v :: stack, M.storeElements c' v elements s) := by
  induction elements generalizing c with
  | nil =>
    exact ⟨rfl, fun _ he => absurd he List.not_mem_nil, [], Writes.refl c, by intros; rfl⟩
  | cons e rest ih =>
    obtain ⟨element, i⟩ := e
    change (exec (emitElements single rest)
      (exec (emitTupleElement .equal single i element) c)).error = none at he
    change (exec (emitElements single rest)
      (exec (emitTupleElement .equal single i element) c)).constants = _ ∧ _ ∧ ∃ is, Writes c
        (exec (emitElements single rest) (exec (emitTupleElement .equal single i element) c)) is ∧ _
    cases h : element.assignedName? with
    | none =>
      have htable : tupleConstants c ((element, i) :: rest) = tupleConstants c rest := by
        simp only [tupleConstants, List.foldl_cons, elementConstants, h]
      rw [emitTupleElement_none h] at he ⊢
      rw [htable]
      obtain ⟨hconstants, hnumbers, is, hw, hrun⟩ := ih he
      refine ⟨hconstants, ?_, is, hw, ?_⟩
      · rintro e he hne
        rcases List.mem_cons.1 he with rfl | he
        · exact absurd h hne
        · exact hnumbers e he hne
      · intro V S M c' cs v stack s hl hp hcs hroom
        rw [hrun V S M c' cs v stack s hl hp hcs hroom, Machine.storeElements, h]
    | some name =>
      set c₁ := exec (emitTupleElement .equal single i element) c with hc₁
      have he₁ : c₁.error = none := error_of_emitElements he
      obtain ⟨hlt, hw₁, hconstants₁⟩ := writes_element h he₁
      rw [← hc₁] at hw₁ hconstants₁
      have htable : tupleConstants c ((element, i) :: rest) = tupleConstants c₁ rest := by
        simp only [tupleConstants, List.foldl_cons, hconstants₁, hw₁.locals]
      rw [elementConstants_eq h] at hconstants₁
      rw [htable]
      obtain ⟨hconstants, hnumbers, is, hw, hrun⟩ := ih he
      have htable₁ : variableConstants { c with constants := insertConstant c.constants (.num i) }
          name <+: tupleConstants c₁ rest := by
        rw [← hconstants₁, ← hconstants]
        exact hw.constants
      refine ⟨hconstants, ?_, _, hw₁.trans hw, ?_⟩
      · rintro e he hne
        rcases List.mem_cons.1 he with rfl | he
        · exact ⟨_, hlt, getElem?_insertConstant (Constant.equal_num i)
            ((prefix_variableConstants _ name).trans htable₁)⟩
        · exact hnumbers e he hne
      · intro V S M c' cs v stack s hl hp hcs hroom
        rw [M.steps_append, M.steps_element (htable₁.trans hcs) hroom]
        dsimp only [Except.bind]
        rw [hrun V S M c' cs v stack _ (hl.trans hw₁.locals.symm) hp hcs hroom,
          Machine.storeElements, h]
        dsimp only
        rw [M.storeVariable_congr (c := { c with constants := insertConstant c.constants (.num i) })
          hl (htable₁.trans hp)]

/-! ### The law -/

namespace Machine

variable {V S : Type} (M : Machine V S) (path : Node → V → S → S) (locals : List (Option Bytes))

/-- An assignment to an lvalue; `path` is the one to an lvalue that is no name. -/
def assignTarget (target : Node) (v : V) (s : S) : S :=
  match target.assignedName? with
  | some name =>
    match resolveLocal locals name with
    | some i => M.storeLocal (i % 256) v s
    | none => M.storeGlobal (.string name) v s
  | none => path target v s

/-- The assignments to the lvalues with these numbers, from left to right. -/
def assignElements (v : V) : List (Node × ℕ) → S → S
  | [], s => s
  | (target, i) :: rest, s =>
    assignElements v rest (M.assignTarget path locals target (M.tupleGet v i s) s)

end Machine

/-- The assignment to a tuple is the code of the right side, and after it code that assigns to each
lvalue its element of the value and leaves the value on the stack. -/
def TupleAssigns (c : Compiler) (elements : List Node) (right : Node) : Prop :=
  let before := exec (compileNode right) c
  let after := exec (compileNode (.assignment .equal (.lvalueTuple elements) right)) c
  ∃ bytes, after.code = before.code ++ bytes ∧ before.constants <+: after.constants ∧
    ∀ (V S : Type) (M : Machine V S) (path : Node → V → S → S) (cs : List Constant) (v : V)
      (stack : List V) (s : S), after.constants <+: cs → stack.length + 2 < M.stackMax →
      M.run cs bytes (v :: stack) s =
        .ok (v :: stack, M.assignElements path before.locals v elements.zipIdx s)

/-- Every lvalue is a name, and the index of a global name fits in two bytes. -/
def AllNamed (before : Compiler) (elements : List Node) : Prop :=
  ∀ e ∈ elements, ∃ name, e.assignedName? = some name ∧
    (resolveLocal before.locals name = none →
      constantIndex (tupleConstants before elements.zipIdx) (.string name) < 65536)

/-- No more numbers than there are two-byte indexes. -/
theorem le_of_numbers {cs : List Constant} {n : ℕ}
    (h : ∀ j < n, ∃ k < 65536, cs[k]? = some (.num j)) : n ≤ 65536 := by
  have hnodup : ((List.range n).map fun j => Constant.num (j : ℕ)).Nodup := by
    refine List.Nodup.map (fun a b hab => ?_) List.nodup_range
    injection hab with hab
    exact_mod_cast hab
  have hsub : ((List.range n).map fun j => Constant.num (j : ℕ)) ⊆ cs.take 65536 := by
    intro x hx
    obtain ⟨j, hj, rfl⟩ := List.mem_map.1 hx
    obtain ⟨k, hk, hget⟩ := h j (List.mem_range.1 hj)
    exact List.mem_of_getElem? ((List.getElem?_take_of_lt hk).trans hget)
  have hle := (List.subperm_of_subset hnodup hsub).length_le
  simp only [List.length_map, List.length_range, List.length_take] at hle
  omega

/-- Where every lvalue is a name the code does what the assignment means. -/
theorem Machine.storeElements_eq {V S : Type} (M : Machine V S) (path : Node → V → S → S)
    {c : Compiler} {locals : List (Option Bytes)} (hl : c.locals = locals) {v : V}
    {elements : List (Node × ℕ)}
    (h : ∀ e ∈ elements, e.2 < 65536 ∧ ∃ name, e.1.assignedName? = some name ∧
      (resolveLocal locals name = none → variableConstant c name = .string name)) (s : S) :
    M.storeElements c v elements s = M.assignElements path locals v elements s := by
  induction elements generalizing s with
  | nil => rfl
  | cons e rest ih =>
    obtain ⟨element, i⟩ := e
    obtain ⟨hi, name, hname, hfits⟩ := h _ List.mem_cons_self
    have hstore : ∀ w, M.storeVariable c name w s = M.assignTarget path locals element w s := by
      intro w
      simp only [Machine.storeVariable, Machine.assignTarget, hname, hl]
      cases hr : resolveLocal locals name with
      | some j => rfl
      | none =>
        dsimp only
        rw [hfits hr]
    rw [Machine.storeElements, hname, Machine.assignElements]
    dsimp only
    rw [hstore, M.index_constant i hi]
    exact ih (fun e he => h e (List.mem_cons_of_mem _ he)) _

/-! ### What is assigned -/

/-- What an assignment was made to. -/
inductive Mark where
  | slot (i : ℕ)
  | name (c : Constant)
  | path

/-- A machine that keeps a record of the assignments. -/
def recorder : Machine ℤ (List Mark) where
  stackMax := 3
  null := 0
  constant
    | .num v => v.num
    | _ => 0
  loadLocal _ _ := 0
  storeLocal i _ s := s ++ [.slot i]
  loadGlobal _ s := (0, s)
  storeGlobal c _ s := s ++ [.name c]
  elements? _ _ := none
  index := id
  index_constant i _ := Rat.num_natCast i
  operate _ _ := none

/-- The mark of a store to this name, with this constant for a global one. -/
def nameMark (locals : List (Option Bytes)) (name : Bytes) (c : Constant) : Mark :=
  match resolveLocal locals name with
  | some i => .slot (i % 256)
  | none => .name c

theorem storeElements_recorder (c : Compiler) (v : ℤ) (elements : List (Node × ℕ))
    (s : List Mark) : recorder.storeElements c v elements s = s ++ elements.filterMap fun e =>
      e.1.assignedName?.map fun name => nameMark c.locals name (variableConstant c name) := by
  induction elements generalizing s with
  | nil => exact (List.append_nil s).symm
  | cons e rest ih =>
    obtain ⟨element, i⟩ := e
    rw [Machine.storeElements, List.filterMap_cons]
    cases h : element.assignedName? with
    | none => exact ih s
    | some name =>
      dsimp only [Option.map_some]
      rw [ih, List.append_cons]
      unfold Machine.storeVariable nameMark
      cases resolveLocal c.locals name <;> rfl

theorem assignElements_recorder (locals : List (Option Bytes)) (v : ℤ)
    (elements : List (Node × ℕ)) (s : List Mark) :
    recorder.assignElements (fun _ _ s => s ++ [.path]) locals v elements s =
      s ++ elements.map fun e => match e.1.assignedName? with
        | some name => nameMark locals name (.string name)
        | none => .path := by
  induction elements generalizing s with
  | nil => exact (List.append_nil s).symm
  | cons e rest ih =>
    obtain ⟨element, i⟩ := e
    rw [Machine.assignElements, ih, List.map_cons, List.append_cons]
    unfold Machine.assignTarget nameMark
    cases element.assignedName? with
    | none => rfl
    | some name =>
      dsimp only
      cases resolveLocal locals name <;> rfl

/-- A list that is mapped whole and filtered to the same has nothing filtered out. -/
theorem forall_of_filterMap_eq_map {α β : Type} {f : α → Option β} {g : α → β} {as : List α}
    (h : as.filterMap f = as.map g) : ∀ a ∈ as, f a = some (g a) := by
  induction as with
  | nil => exact fun a ha => absurd ha List.not_mem_nil
  | cons a as ih =>
    rw [List.filterMap_cons, List.map_cons] at h
    cases hf : f a with
    | none =>
      rw [hf] at h
      have hlen := congrArg List.length h
      have hle := List.length_filterMap_le f as
      simp only [List.length_cons, List.length_map] at hlen
      omega
    | some b =>
      rw [hf] at h
      injection h with hb h
      rintro a' ha'
      rcases List.mem_cons.1 ha' with rfl | ha'
      · rw [hf, hb]
      · exact ih h a' ha'

theorem exec_compileTuple (c : Compiler) (elements : List Node) (right : Node) :
    exec (compileNode (.assignment .equal (.lvalueTuple elements) right)) c =
      exec (emitElements (elements.length = 1) elements.zipIdx) (exec (compileNode right) c) := by
  rw [compileNode]
  rfl

section

variable {c : Compiler} {elements : List Node} {right : Node}
variable (he : (exec (compileNode (.assignment .equal (.lvalueTuple elements) right)) c).error = none)
include he

/-- If every lvalue is assigned, each is a name: the record of the assignments that were meant is
that of the assignments that were made. -/
theorem TupleAssigns.allNamed (h : TupleAssigns c elements right) :
    AllNamed (exec (compileNode right) c) elements := by
  obtain ⟨bytes, hcode, -, hassign⟩ := h
  rw [exec_compileTuple] at he hcode hassign
  obtain ⟨hconstants, -, is, hw, hrun⟩ := writes_elements he
  unfold AllNamed
  rw [← hconstants] at hrun ⊢
  set before := exec (compileNode right) c
  set after := exec (emitElements (elements.length = 1) elements.zipIdx) before
  intro e hmem
  obtain ⟨i, hi⟩ := List.mem_iff_getElem?.1 hmem
  have hmeant := hassign ℤ (List Mark) recorder (fun _ _ s => s ++ [.path]) after.constants 0 [] []
    (List.prefix_refl _) (by decide)
  have hmade : recorder.run after.constants _ [0] [] = _ := recorder.run_writes hw [0] []
  rw [hcode, List.drop_left, hmeant, hrun ℤ (List Mark) recorder after after.constants 0 [] []
    hw.locals (List.prefix_refl _) (List.prefix_refl _) (by decide), assignElements_recorder,
    storeElements_recorder] at hmade
  injection hmade with hmade
  injection hmade with _ hmade
  have hmark := forall_of_filterMap_eq_map (List.append_cancel_left hmade.symm) (e, i)
    (List.mk_mem_zipIdx_iff_getElem?.2 hi)
  cases hname : e.assignedName? with
  | none =>
    rw [hname] at hmark
    cases hmark
  | some name =>
    refine ⟨name, rfl, fun hr => ?_⟩
    rw [hname] at hmark
    dsimp only [Option.map_some] at hmark
    injection hmark with hmark
    simp only [nameMark, hw.locals, hr] at hmark
    injection hmark with hmark
    by_contra hge
    exact variableConstant_ne (Nat.not_lt.1 hge) hmark

/-- If every lvalue is a name, all are assigned. -/
theorem AllNamed.tupleAssigns (hnamed : AllNamed (exec (compileNode right) c) elements) :
    TupleAssigns c elements right := by
  unfold TupleAssigns
  unfold AllNamed at hnamed
  rw [exec_compileTuple] at he ⊢
  obtain ⟨hconstants, hnumbers, is, hw, hrun⟩ := writes_elements he
  rw [← hconstants] at hnumbers hrun hnamed
  set before := exec (compileNode right) c
  set after := exec (emitElements (elements.length = 1) elements.zipIdx) before
  -- the numbers of the elements are constants of the chunk themselves
  have hlen : elements.length ≤ 65536 := le_of_numbers fun j hj => by
    have hget := List.getElem?_eq_getElem hj
    obtain ⟨name, hname, -⟩ := hnamed _ (List.mem_of_getElem? hget)
    exact hnumbers _ (List.mk_mem_zipIdx_iff_getElem?.2 hget) (by simp [hname])
  refine ⟨after.code.drop before.code.length, ?_, hw.constants, ?_⟩
  · obtain ⟨bytes, hb, -⟩ := hw.code
    rw [hb, List.drop_left]
  · intro V S M path cs v stack s hcs hroom
    rw [M.run_writes hw, hrun V S M after cs v stack s hw.locals (List.prefix_refl _) hcs hroom,
      M.storeElements_eq path hw.locals]
    rintro ⟨e, i⟩ hmem
    have hi := (List.mem_zipIdx' hmem).1
    obtain ⟨name, hname, hfits⟩ := hnamed e (List.fst_mem_of_mem_zipIdx hmem)
    exact ⟨by omega, name, hname, fun hr => variableConstant_of_lt (hfits hr)⟩

/-- The assignment to a tuple assigns to all of its lvalues exactly when each of them is a name
whose index fits. -/
theorem tupleAssigns_iff :
    TupleAssigns c elements right ↔ AllNamed (exec (compileNode right) c) elements :=
  ⟨fun h => h.allNamed he, fun h => h.tupleAssigns he⟩

end

/-- `($x, $y) = $z`. -/
theorem tupleAssigns_pair :
    TupleAssigns (.init [] false false) [.scalar (ascii "x"), .scalar (ascii "y")]
      (.scalar (ascii "z")) :=
  (tupleAssigns_iff (by decide)).2 (by
    intro e he
    rcases List.mem_cons.1 he with rfl | he
    · exact ⟨_, rfl, fun _ => by decide⟩
    · obtain rfl := List.mem_singleton.1 he
      exact ⟨_, rfl, fun _ => by decide⟩)

/-- `($x, $a[0]) = $z` leaves the element alone. -/
theorem not_tupleAssigns :
    ¬ TupleAssigns (.init [] false false)
      [.scalar (ascii "x"), .index (.scalar (ascii "a")) (.number false 0)]
      (.scalar (ascii "z")) := by
  intro h
  obtain ⟨name, hname, -⟩ := h.allNamed (by decide) (.index (.scalar (ascii "a")) (.number false 0))
    (by simp)
  cases hname

end Slp
