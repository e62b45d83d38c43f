import Mathlib.Data.List.Nodup
import Slp.Compiler.Operands

/-!
# The constants that operands refer to

A function of a program is compiled into a chunk with a table of constants, and an operand is an
index of this table in two bytes.  `named_variable` narrows the index of a global name without
looking at it, every other emitter makes an index above 65535 an error.  So the operands refer to
the constants that were meant exactly if the function has no more than 65536 different constants
(`constantLaw_iff`); with one more, a variable is addressed by the name of another constant and the
program is compiled without an error (`not_constantLaw_manyNames`).
-/

namespace Slp

/-! ### The table -/

section

variable {cs table : List Constant} {v : Constant}

theorem constantIndex_le (cs : List Constant) (v : Constant) : constantIndex cs v ≤ cs.length :=
  List.findIdx_le_length

/-- A constant that was added stands at its index. -/
theorem getElem?_of_insertConstant (hp : insertConstant cs v <+: table) :
    table[constantIndex cs v]? = some v := by
  obtain ⟨more, rfl⟩ := hp
  rw [insertConstant]
  split
  · rename_i hlt
    rw [List.getElem?_append_left hlt, getElem?_constantIndex hlt]
  · rename_i hlt
    have heq : constantIndex cs v = cs.length := by
      have := constantIndex_le cs v
      omega
    rw [heq, List.getElem?_append_left (by simp)]
    simp

theorem mem_of_insertConstant {w : Constant} (h : w ∈ insertConstant cs v) : w ∈ cs ∨ w = v := by
  unfold insertConstant at h
  split at h
  · exact .inl h
  · simpa using h

end

namespace Mention

/-- The constant that is meant. -/
def constant? : Mention → Option Constant
  | .constant _ v _ => some v
  | .closure keyword sub => some (sub.function keyword)
  | _ => none

/-- An operand refers to what is meant by it. -/
def Refers (table : List Constant) : Mention → Access → Prop
  | .slot _, .slot _ => True
  | .constant o v _, .constant o' k => o' = o ∧ table[k]? = some v
  | .closure keyword sub, .constant o k => o = .closure ∧ table[k]? = some (sub.function keyword)
  | .raw o _, .constant o' _ => o' = o
  | _, _ => False

/-- A constant whose index is not checked is found again. -/
def Findable : Mention → Prop
  | .constant _ v false => v.equal v = true
  | _ => True

theorem prefix_enter (cs : List Constant) (m : Mention) : cs <+: m.enter cs := by
  cases m with
  | constant o v checked => exact prefix_insertConstant cs v
  | closure keyword sub => exact prefix_insertConstant cs _
  | _ => exact List.prefix_refl cs

end Mention

theorem prefix_constantTable (cs : List Constant) (ms : List Mention) :
    cs <+: constantTable cs ms := by
  induction ms generalizing cs with
  | nil => exact List.prefix_refl cs
  | cons m ms ih => exact (m.prefix_enter cs).trans (ih _)

/-- The constants of the table were mentioned. -/
theorem mem_constantTable {cs : List Constant} {ms : List Mention} {v : Constant}
    (h : v ∈ constantTable cs ms) : v ∈ cs ∨ ∃ m ∈ ms, m.constant? = some v := by
  induction ms generalizing cs with
  | nil => exact .inl h
  | cons m ms ih =>
    rcases ih h with hin | ⟨n, hn, hv⟩
    · cases m with
      | constant o w checked =>
        rcases mem_of_insertConstant hin with hcs | rfl
        · exact .inl hcs
        · exact .inr ⟨_, List.mem_cons_self, rfl⟩
      | closure keyword sub =>
        rcases mem_of_insertConstant hin with hcs | rfl
        · exact .inl hcs
        · exact .inr ⟨_, List.mem_cons_self, rfl⟩
      | slot i => exact .inl hin
      | raw o k => exact .inl hin
    · exact .inr ⟨n, List.mem_cons_of_mem m hn, hv⟩

/-- In a table without an index above 65535 every operand refers to what was meant. -/
theorem refers_of_length_le {cs : List Constant} {ms : List Mention}
    (hlen : (constantTable cs ms).length ≤ 65536) :
    List.Forall₂ (Mention.Refers (constantTable cs ms)) ms (accesses cs ms) := by
  induction ms generalizing cs with
  | nil => exact .nil
  | cons m ms ih =>
    have hpre : m.enter cs <+: constantTable cs (m :: ms) := prefix_constantTable _ ms
    -- the index of a constant that was entered lies in the table
    have hat : ∀ v, insertConstant cs v = m.enter cs →
        (constantTable cs (m :: ms))[constantIndex cs v % 65536]? = some v := by
      intro v hv
      have hget := getElem?_of_insertConstant (hv.symm ▸ hpre)
      have hlt := (List.getElem?_eq_some_iff.1 hget).1
      rwa [Nat.mod_eq_of_lt (by omega)]
    refine .cons ?_ (ih hlen)
    cases m with
    | slot i => trivial
    | constant o v checked => exact ⟨rfl, hat v rfl⟩
    | closure keyword sub => exact ⟨rfl, hat _ rfl⟩
    | raw o k => rfl

/-- A constant beyond the last index cannot be referred to without a check. -/
theorem length_enter_le {cs table : List Constant} {m : Mention} (hcs : cs.length ≤ 65536)
    (hpre : m.enter cs <+: table) (hchecked : m.Checked cs) (hfind : m.Findable)
    (hrefers : m.Refers table (m.access cs)) : (m.enter cs).length ≤ 65536 := by
  have hinsert : ∀ v, constantIndex cs v < 65536 → (insertConstant cs v).length ≤ 65536 := by
    intro v hv
    unfold insertConstant
    split
    · exact hcs
    · rw [List.length_append, List.length_singleton]
      omega
  cases m with
  | slot i => exact hcs
  | raw o k => exact hcs
  | closure keyword sub => exact hinsert _ hchecked.1
  | constant o v checked =>
    cases checked with
    | true => exact hinsert v hchecked
    | false =>
      refine hinsert v (Nat.lt_of_not_le fun hle => ?_)
      have hlast : constantIndex cs v = 65536 := by
        have := constantIndex_le cs v
        omega
      -- the operand reads as the first constant, which is not the one that was meant
      have hget : table[0]? = some v := by
        have h := hrefers.2
        rwa [hlast] at h
      obtain ⟨more, rfl⟩ := (Mention.prefix_enter cs (.constant o v false)).trans hpre
      rw [List.getElem?_append_left (by have := constantIndex_le cs v; omega)] at hget
      exact ne_of_lt_constantIndex (by omega) hfind hget

/-- Operands that all refer to what was meant are not too many. -/
theorem length_le_of_refers {cs : List Constant} {ms : List Mention} (hcs : cs.length ≤ 65536)
    (hchecked : AllChecked cs ms) (hfind : ∀ m ∈ ms, m.Findable)
    (hrefers : List.Forall₂ (Mention.Refers (constantTable cs ms)) ms (accesses cs ms)) :
    (constantTable cs ms).length ≤ 65536 := by
  induction ms generalizing cs with
  | nil => exact hcs
  | cons m ms ih =>
    obtain ⟨hhead, htail⟩ := List.forall₂_cons.1 hrefers
    exact ih (length_enter_le hcs (prefix_constantTable _ ms) hchecked.1
      (hfind m List.mem_cons_self) hhead) hchecked.2
      (fun n hn => hfind n (List.mem_cons_of_mem m hn)) htail

/-! ### Functions -/

/-- A mention of the compiler in these surroundings: only names are written without a check, and
only a closure makes a function a constant. -/
def Mention.Made (x : Surroundings) : Mention → Prop
  | .slot _ => True
  | .constant _ v checked => v.isPlain ∧ (checked = false → ∃ name, v = .string name)
  | .closure keyword sub => ∃ inner, sub = x.closure keyword (compileNode inner)
  | .raw o _ => o = .importOp

theorem made_mentions (x : Surroundings) {s : Shape} (hs : s.Made) :
    ∀ m ∈ s.mentions x, m.Made x := by
  induction s with
  | op o operands h =>
    intro m hm
    obtain ⟨operand, hmem, heq⟩ := List.mem_filterMap.1 hm
    cases operand with
    | byte b => cases heq
    | short k =>
      cases heq
      exact hs.raw k hmem
    | const v =>
      cases heq
      exact ⟨hs.plain v hmem, nofun⟩
  | var name assign =>
    intro m hm
    simp only [Shape.mentions] at hm
    split at hm
    · cases List.mem_singleton.1 hm
      trivial
    · cases List.mem_singleton.1 hm
      exact ⟨rfl, fun _ => ⟨name, rfl⟩⟩
  | reference name =>
    intro m hm
    simp only [Shape.mentions] at hm
    split at hm
    · cases List.mem_singleton.1 hm
      trivial
    · cases List.mem_singleton.1 hm
      exact ⟨rfl, nofun⟩
  | closure keyword body =>
    intro m hm
    cases List.mem_singleton.1 hm
    obtain ⟨inner, rfl⟩ := hs
    exact ⟨inner, rfl⟩
  | seq a b iha ihb | branch o h a b iha ihb | whileLoop o h a b iha ihb
    | foreverLoop a b iha ihb =>
    intro m hm
    rcases List.mem_append.1 hm with hm | hm
    · exact iha hs.1 m hm
    · exact ihb hs.2 m hm
  | guard o h a ih | inTry a ih | foreachLoop o h a ih => exact ih hs
  | forLoop head body step ihh ihb ihs =>
    intro m hm
    rcases List.mem_append.1 hm with hm | hm
    · exact ihh hs.1 m hm
    · rcases List.mem_append.1 hm with hm | hm
      · exact ihb hs.2.1 m hm
      · exact ihs hs.2.2 m hm
  | _ => exact fun m hm => absurd hm List.not_mem_nil

theorem Mention.Made.findable {x : Surroundings} {m : Mention} (h : m.Made x) : m.Findable := by
  cases m with
  | constant o v checked =>
    cases checked with
    | true => trivial
    | false =>
      obtain ⟨name, rfl⟩ := h.2 rfl
      exact Constant.equal_string name
  | _ => trivial

/-- What a function's body mentions. -/
def functionMentions (c : Compiler) (body : Node) : List Mention :=
  (shape body).mentions c.surroundings

/-- The functions that make up a program, each with the compiler of its body. -/
inductive FunctionOf (replMode : Bool) (ast : Node) : Compiler → Node → Prop where
  | script : FunctionOf replMode ast (compileBody [] replMode false ast) ast
  | closure {c : Compiler} {body inner : Node} {keyword : Option Bytes}
      (h : FunctionOf replMode ast c body)
      (hmem : .closure keyword (c.surroundings.closure keyword (compileNode inner)) ∈
        functionMentions c body) :
      FunctionOf replMode ast (c.surroundings.closure keyword (compileNode inner)) inner

theorem mentions_compileBody {enclosing : List (List (Option Bytes))} {replMode inlineBody : Bool}
    {body : Node} (herr : (compileBody enclosing replMode inlineBody body).error = none) :
    Mentions (Compiler.init enclosing replMode inlineBody)
      (compileBody enclosing replMode inlineBody body)
      (functionMentions (compileBody enclosing replMode inlineBody body) body) := by
  have hinit : Whole (Compiler.init enclosing replMode inlineBody) :=
    ⟨.zero, fun j hj => absurd hj List.not_mem_nil⟩
  rw [compileBody_eq] at herr ⊢
  have hbody := mentions_emit (shape body) (made_shape body) hinit
    (weak_init enclosing replMode inlineBody) herr
  have hall := (hbody.quiet (.emitOp (o := .pushNull) rfl rfl _)).quiet
    (.emitOp (o := .return) rfl rfl _)
  rw [functionMentions, hall.surroundings]
  exact hall

/-- What the compiler of a function has written in the end. -/
structure Compiled (c : Compiler) (body : Node) : Prop where
  error : c.error = none
  constants : c.constants = constantTable [] (functionMentions c body)
  checked : AllChecked [] (functionMentions c body)
  listing : Listing c.code c.code.length (accesses [] (functionMentions c body))

theorem compiled_compileBody {enclosing : List (List (Option Bytes))} {replMode inlineBody : Bool}
    {body : Node} (herr : (compileBody enclosing replMode inlineBody body).error = none) :
    Compiled (compileBody enclosing replMode inlineBody body) body := by
  have h := mentions_compileBody herr
  exact ⟨herr, h.constants, h.checked, h.listing [] .zero⟩

/-- What is checked before a mention is among the checks. -/
theorem AllChecked.exists {cs : List Constant} {ms : List Mention} (h : AllChecked cs ms)
    {m : Mention} (hm : m ∈ ms) : ∃ cs', m.Checked cs' := by
  induction ms generalizing cs with
  | nil => exact absurd hm List.not_mem_nil
  | cons n ms ih =>
    rcases List.mem_cons.1 hm with rfl | hm
    · exact ⟨cs, h.1⟩
    · exact ih h.2 hm

/-- The functions of a program are compiled without an error when the program is. -/
theorem FunctionOf.compiled {replMode : Bool} {ast body : Node} {f : Constant} {c : Compiler}
    (hf : compileEx replMode ast = .ok f) (h : FunctionOf replMode ast c body) :
    Compiled c body := by
  induction h with
  | script =>
    simp only [compileEx] at hf
    cases herr : (compileBody [] replMode false ast).error with
    | none => exact compiled_compileBody herr
    | some message =>
      rw [herr] at hf
      cases hf
  | closure h hmem ih =>
    obtain ⟨cs, -, herr⟩ := ih.checked.exists hmem
    exact compiled_compileBody herr

/-- The chunks of a compiled program are those of its functions. -/
theorem exists_functionOf {replMode : Bool} {ast : Node} {f : Constant} {code : List UInt8}
    (hf : compileEx replMode ast = .ok f) (hcode : ChunkOf f code) :
    ∃ c body, FunctionOf replMode ast c body ∧ c.code = code := by
  suffices hall : ∀ g code, ChunkOf g code → (∃ c body name, FunctionOf replMode ast c body ∧
      g = c.function name) → ∃ c body, FunctionOf replMode ast c body ∧ c.code = code by
    refine hall f code hcode ⟨_, ast, none, .script, ?_⟩
    simp only [compileEx] at hf
    cases herr : (compileBody [] replMode false ast).error with
    | none =>
      rw [herr] at hf
      cases hf
      rfl
    | some message =>
      rw [herr] at hf
      cases hf
  intro g code hcode
  induction hcode with
  | own code constants name =>
    rintro ⟨c, body, name', hc, heq⟩
    cases heq
    exact ⟨c, body, hc, rfl⟩
  | @inner code code' constants name g hg hin ih =>
    rintro ⟨c, body, name', hc, heq⟩
    cases heq
    have hcompiled := hc.compiled hf
    rw [hcompiled.constants] at hg
    obtain ⟨m, hm, hv⟩ := (mem_constantTable hg).resolve_left List.not_mem_nil
    have hmade := made_mentions _ (made_shape body) m hm
    cases m with
    | slot i => cases hv
    | raw o k => cases hv
    | constant o v checked =>
      -- a constant with a chunk is a function
      cases hv
      have hplain := hmade.1
      cases hin <;> cases hplain
    | closure keyword sub =>
      cases hv
      obtain ⟨inner, rfl⟩ := hmade
      exact ih ⟨_, inner, keyword, .closure hc hm, rfl⟩

/-! ### The law -/

/-- The operands of a function refer to what the compiler meant by them, and its constants have
indexes of two bytes. -/
structure ConstantLaw (c : Compiler) (body : Node) : Prop where
  refers : ∃ as, Listing c.code c.code.length as ∧
    List.Forall₂ (Mention.Refers c.constants) (functionMentions c body) as
  narrow : c.constants.length ≤ 65536

/-- The different constants of a function: its literals, its names and its closures. -/
def distinctConstants (c : Compiler) (body : Node) : List Constant :=
  constantTable [] (functionMentions c body)

/-- The operands of a function refer to what was meant only if its constants are not too many. -/
theorem refers_iff {c : Compiler} {body : Node} (h : Compiled c body) :
    (∃ as, Listing c.code c.code.length as ∧
      List.Forall₂ (Mention.Refers c.constants) (functionMentions c body) as) ↔
      (distinctConstants c body).length ≤ 65536 := by
  rw [h.constants]
  constructor
  · rintro ⟨as, hlist, hrefers⟩
    rw [hlist.unique h.listing] at hrefers
    exact length_le_of_refers (Nat.zero_le _) h.checked
      (fun m hm => (made_mentions _ (made_shape body) m hm).findable) hrefers
  · exact fun hlen => ⟨_, h.listing, refers_of_length_le hlen⟩

/-- In a program that compiles without an error, the operands of a function refer to the constants
that were meant, by indexes of two bytes, exactly if the function has no more than 65536 different
constants. -/
theorem constantLaw_iff {replMode : Bool} {ast body : Node} {f : Constant} {c : Compiler}
    (hf : compileEx replMode ast = .ok f) (hc : FunctionOf replMode ast c body) :
    ConstantLaw c body ↔ (distinctConstants c body).length ≤ 65536 := by
  have h := hc.compiled hf
  refine ⟨fun hlaw => (refers_iff h).1 hlaw.refers, fun hlen => ⟨(refers_iff h).2 hlen, ?_⟩⟩
  rw [h.constants]
  exact hlen

theorem constantLaw_iff_string :
    ConstantLaw (compileBody [] false false (.script [.string (ascii "a")]))
        (.script [.string (ascii "a")]) ↔
      (distinctConstants (compileBody [] false false (.script [.string (ascii "a")]))
        (.script [.string (ascii "a")])).length ≤ 65536 := by
  have h : compileEx false (.script [.string (ascii "a")]) =
      .ok (.function [3, 0, 0, 63, 0, 75] [.string (ascii "a")] none) := by rfl
  exact constantLaw_iff h .script

/-! ### Too many names -/

theorem error_namedVariable (name : Bytes) (assign : Bool) (c : Compiler) :
    (exec (namedVariable name assign) c).error = c.error := by
  simp only [namedVariable, exec_bind, result_get, exec_get]
  cases resolveLocal c.locals name with
  | some i =>
    dsimp only
    cases (if assign then storeLocalOps else loadLocalOps)[i]? <;> rfl
  | none =>
    obtain ⟨hr, he⟩ := run_addConstant (.string name) c
    simp only [exec_bind, hr, he, exec_emitOp, exec_emitShort]

/-- Reading variables is never an error. -/
theorem error_scalars (names : List Bytes) (c : Compiler) :
    (exec (shapeStatements true (names.map .scalar)).emit c).error = c.error := by
  induction names generalizing c with
  | nil => rfl
  | cons s names ih =>
    have hread : (exec (shape (.scalar s)).emit c).error = c.error := error_namedVariable _ _ c
    exact (ih _).trans hread

/-- Variables of a script are mentioned by their names. -/
theorem mentions_scalars {x : Surroundings} (hx : x.locals = [none]) (names : List Bytes) :
    (shapeStatements true (names.map .scalar)).mentions x = names.map fun s =>
      .constant .loadGlobal (.string (Node.nameBuf (ascii "$" ++ s))) false := by
  induction names with
  | nil => rfl
  | cons s names ih =>
    have hlocal : resolveLocal x.locals (Node.nameBuf (ascii "$" ++ s)) = none := by
      rw [hx]
      rfl
    simp only [List.map_cons, shapeStatements, shape, Shape.all, Shape.mentions, hlocal, ih,
      Node.leavesNothing, Bool.false_eq_true, if_false, List.append_nil, List.singleton_append,
      List.nil_append]

/-- Different names are different constants. -/
theorem length_constantTable_names {cs : List Constant} {names : List Bytes} (hnodup : names.Nodup)
    (hcs : ∀ s ∈ names, .string s ∉ cs) :
    (constantTable cs (names.map fun s => .constant .loadGlobal (.string s) false)).length =
      cs.length + names.length := by
  induction names generalizing cs with
  | nil => rfl
  | cons s names ih =>
    obtain ⟨hs, hnodup⟩ := List.nodup_cons.1 hnodup
    have hnew : insertConstant cs (.string s) = cs ++ [.string s] := by
      refine if_neg fun hlt => hcs s List.mem_cons_self ?_
      exact List.mem_of_getElem? (getElem?_constantIndex hlt)
    rw [List.map_cons, constantTable, List.foldl_cons, ← constantTable, Mention.enter, hnew,
      ih hnodup, List.length_append, List.length_singleton, List.length_cons]
    · omega
    · intro t ht hin
      rcases List.mem_append.1 hin with hin | hin
      · exact hcs t (List.mem_cons_of_mem s ht) hin
      · cases List.mem_singleton.1 hin
        exact hs ht

/-- The name `v` with five digits. -/
def numberedName (i : ℕ) : Bytes :=
  118 :: [i / 10000, i / 1000 % 10, i / 100 % 10, i / 10 % 10, i % 10].map (UInt8.ofNat <| 48 + ·)

theorem digit_inj {a b : ℕ} (ha : a < 10) (hb : b < 10)
    (h : UInt8.ofNat (48 + a) = UInt8.ofNat (48 + b)) : a = b := by
  have hnat := congrArg UInt8.toNat h
  rw [UInt8.toNat_ofNat', UInt8.toNat_ofNat'] at hnat
  omega

theorem numberedName_inj {i j : ℕ} (hi : i < 100000) (hj : j < 100000)
    (h : numberedName i = numberedName j) : i = j := by
  simp only [numberedName, List.map_cons, List.cons.injEq, true_and] at h
  obtain ⟨h4, h3, h2, h1, h0, -⟩ := h
  have h4 := digit_inj (by omega) (by omega) h4
  have h3 := digit_inj (by omega) (by omega) h3
  have h2 := digit_inj (by omega) (by omega) h2
  have h1 := digit_inj (by omega) (by omega) h1
  have h0 := digit_inj (by omega) (by omega) h0
  omega

/-- A script that reads `n` variables. -/
def manyNames (n : ℕ) : Node := .script (((List.range n).map numberedName).map .scalar)

section

variable (n : ℕ)

theorem error_manyNames : (compileBody [] false false (manyNames n)).error = none := by
  rw [compileBody_eq, error_emitOp, error_emitOp, manyNames, shape]
  exact error_scalars _ _

theorem compileEx_manyNames : compileEx false (manyNames n) =
    .ok ((compileBody [] false false (manyNames n)).function none) := by
  simp only [compileEx]
  rw [error_manyNames n]
  rfl

theorem distinct_manyNames (hn : n ≤ 100000) :
    (distinctConstants (compileBody [] false false (manyNames n)) (manyNames n)).length = n := by
  have hlocals : (compileBody [] false false (manyNames n)).surroundings.locals = [none] :=
    congrArg Surroundings.locals (mentions_compileBody (error_manyNames n)).surroundings
  generalize compileBody [] false false (manyNames n) = c at hlocals ⊢
  have hmap : (((List.range n).map numberedName).map fun s =>
      Mention.constant .loadGlobal (.string (Node.nameBuf (ascii "$" ++ s))) false) =
      ((List.range n).map fun i => ascii "$" ++ numberedName i).map fun s =>
        Mention.constant .loadGlobal (.string s) false := by
    rw [List.map_map, List.map_map]
    exact List.map_congr_left fun i _ => rfl
  rw [distinctConstants, functionMentions, manyNames, shape, mentions_scalars hlocals, hmap,
    length_constantTable_names ?_ fun _ _ => List.not_mem_nil]
  · simp
  · refine List.Nodup.map_on (fun i hi j hj h => ?_) List.nodup_range
    rw [List.mem_range] at hi hj
    exact numberedName_inj (by omega) (by omega) (List.append_cancel_left h)

end

/-- The 65537th name is addressed by the index of the first, and nothing is reported. -/
theorem not_constantLaw_manyNames :
    ¬∀ (replMode : Bool) (ast body : Node) (f : Constant) (c : Compiler),
      compileEx replMode ast = .ok f → FunctionOf replMode ast c body → ConstantLaw c body := by
  intro hall
  have hlaw := hall false (manyNames 65537) (manyNames 65537) _ _ (compileEx_manyNames 65537) .script
  have hlen := (refers_iff (compiled_compileBody (error_manyNames 65537))).1 hlaw.refers
  rw [distinct_manyNames 65537 (by omega)] at hlen
  omega

end Slp
