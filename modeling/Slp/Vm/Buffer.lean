import Slp.Vm.Rendering

/-!
# The memory of the string builder

`string_builder_append` keeps its text in a block of memory that it lets grow, and the containers that
were met in an array of 64.

* `append?`: one call, which is none if it writes past the end of the block;
* `Steps`: what a traversal does to a builder, call by call;
* `stringifyValue_steps`, `Matches.run`: **whatever is written, no call writes past the end, and the
  block holds the text unless the memory ran out.**
-/

namespace Slp

/-- `SIZE_MAX`. -/
def maxSize : ℕ := 2 ^ 64 - 1

/-- The fields of `SlpStringBuilder`; the capacity is the length of the block. -/
structure Buffer where
  block : Bytes := []
  length : ℕ := 0
  failed : Bool := false
  containers : List Ref := []

/-- A block of the size with the old bytes in front of it, or none. -/
def Reallocates (realloc : Bytes → ℕ → Option Bytes) : Prop :=
  ∀ block size block', realloc block size = some block' →
    block'.length = size ∧ (block.length ≤ size → block <+: block')

/-- Bytes written into a block; none past its end. -/
def writeAt? (block : Bytes) (offset : ℕ) (text : Bytes) : Option Bytes :=
  if offset + text.length ≤ block.length then
    some (block.take offset ++ text ++ block.drop (offset + text.length))
  else none

/-- One of the calls of a traversal. -/
inductive BuilderStep where
  | append (text : Bytes)
  | fail
  | enter (r : Ref)

namespace Buffer

/-- The doubling loop. -/
def growCapacity (needed : ℕ) : (fuel capacity : ℕ) → ℕ
  | 0, capacity => capacity
  | fuel + 1, capacity =>
    if capacity < needed then
      if capacity > maxSize / 2 then needed else growCapacity needed fuel (capacity * 2)
    else capacity

/-- `memcpy` of the text and the NUL behind it. -/
def store? (b : Buffer) (block text : Bytes) : Option Buffer :=
  (writeAt? block b.length text).bind fun block =>
    (writeAt? block (b.length + text.length) [0]).map fun block =>
      { b with block, length := b.length + text.length }

/-- `string_builder_append`. -/
def append? (realloc : Bytes → ℕ → Option Bytes) (b : Buffer) (text : Bytes) : Option Buffer :=
  if b.failed ∨ text.length = 0 then some b
  else if text.length > maxSize - b.length - 1 then some { b with failed := true }
  else
    let needed := b.length + text.length + 1
    if needed > b.block.length then
      match realloc b.block
        (growCapacity needed needed (if b.block.length < 64 then 64 else b.block.length)) with
      | none => some { b with failed := true }
      | some block => b.store? block text
    else b.store? b.block text

/-- A call; a container is noted in an array of 64. -/
def step? (realloc : Bytes → ℕ → Option Bytes) (b : Buffer) : BuilderStep → Option Buffer
  | .append text => b.append? realloc text
  | .fail => some { b with failed := true }
  | .enter r => if b.containers.length < 64 then some { b with containers := b.containers ++ [r] } else none

def run (realloc : Bytes → ℕ → Option Bytes) (b : Buffer) (steps : List BuilderStep) : Option Buffer :=
  steps.foldlM (step? realloc) b

end Buffer

/-- What a traversal does to a builder. -/
inductive StringBuilder.Steps : StringBuilder → List BuilderStep → StringBuilder → Prop where
  | nil {b : StringBuilder} : Steps b [] b
  | append {b b' : StringBuilder} {text : Bytes} {steps : List BuilderStep}
    (hsteps : Steps (b.append text) steps b') : Steps b (.append text :: steps) b'
  | fail {b b' : StringBuilder} {steps : List BuilderStep} (hsteps : Steps { b with failed := true } steps b') :
    Steps b (.fail :: steps) b'
  | enter {b b' : StringBuilder} {r : Ref} {steps : List BuilderStep} (hlt : b.containers.length < 64)
      (hsteps : Steps { b with containers := b.containers ++ [r] } steps b') : Steps b (.enter r :: steps) b'

/-- The memory of a builder: the length is inside the block, and the block holds the text with the NUL
behind it as long as nothing failed. -/
structure Matches (buffer : Buffer) (b : StringBuilder) : Prop where
  inside : buffer.length = 0 ∨ buffer.length < buffer.block.length
  capacity : buffer.block.length ≤ maxSize
  containers : buffer.containers = b.containers
  text : buffer.failed = false → b.failed = false ∧ buffer.block.take buffer.length = b.chars

section

variable {buffer : Buffer} {b b' : StringBuilder} {text block block' : Bytes} {steps steps' : List BuilderStep}
  {realloc : Bytes → ℕ → Option Bytes} {offset needed fuel capacity : ℕ}

/-! ### The block -/

theorem writeAt?_eq (h : offset + text.length ≤ block.length) :
    writeAt? block offset text =
      some (block.take offset ++ text ++ block.drop (offset + text.length)) := if_pos h

theorem length_write {block : Bytes} {offset : ℕ} {text : Bytes} (h : offset + text.length ≤ block.length) :
    (block.take offset ++ text ++ block.drop (offset + text.length)).length = block.length := by
  simp only [List.length_append, List.length_take, List.length_drop]
  omega

theorem le_growCapacity (hpos : 0 < capacity) (h : needed ≤ capacity + fuel) :
    needed ≤ Buffer.growCapacity needed fuel capacity := by
  induction fuel generalizing capacity with
  | zero => exact h
  | succ fuel ih =>
    rw [Buffer.growCapacity]
    split_ifs with hlt hbig
    · exact Nat.le_refl _
    · exact ih (by omega) (by omega)
    · omega

/-- No size overflows. -/
theorem growCapacity_le (fuel : ℕ) (hneeded : needed ≤ maxSize) (hcapacity : capacity ≤ maxSize) :
    Buffer.growCapacity needed fuel capacity ≤ maxSize := by
  induction fuel generalizing capacity with
  | zero => exact hcapacity
  | succ fuel ih =>
    rw [Buffer.growCapacity]
    split_ifs with hlt hbig
    · exact hneeded
    · exact ih (by omega)
    · exact hcapacity

/-- A block with room for the text and the NUL is written inside. -/
theorem store?_matches (hblock : buffer.length + text.length + 1 ≤ block.length)
    (hcapacity : block.length ≤ maxSize) (hcontainers : buffer.containers = b.containers)
    (htext : buffer.failed = false → b.failed = false ∧ block.take buffer.length = b.chars) :
    ∃ buffer', buffer.store? block text = some buffer' ∧ Matches buffer' (b.append text) := by
  have hwrite := length_write (show buffer.length + text.length ≤ block.length by omega)
  have hnul : buffer.length + text.length + [(0 : UInt8)].length ≤
      (block.take buffer.length ++ text ++ block.drop (buffer.length + text.length)).length := by
    rw [hwrite]
    exact hblock
  have hall := length_write hnul
  refine ⟨_, by rw [Buffer.store?, writeAt?_eq (by omega), Option.bind_some, writeAt?_eq hnul]; rfl, ?_⟩
  have hsame : (b.append text).containers = b.containers := by
    rw [StringBuilder.append]
    split <;> rfl
  refine ⟨.inr ?_, ?_, hcontainers.trans hsame.symm, fun hok => ?_⟩
  · dsimp only
    rw [hall, hwrite]
    omega
  · dsimp only
    rw [hall, hwrite]
    exact hcapacity
  · obtain ⟨hb, hchars⟩ := htext hok
    rw [StringBuilder.append, hb]
    refine ⟨rfl, ?_⟩
    have hlen : (block.take buffer.length ++ text).length = buffer.length + text.length := by
      rw [List.length_append, List.length_take, Nat.min_eq_left (by omega)]
    dsimp only
    rw [List.append_assoc (List.take _ _), List.take_append_of_le_length (by
        rw [List.length_take, hwrite, Nat.min_eq_left (by omega)]), List.take_take,
      Nat.min_self, List.take_append_of_le_length (Nat.le_of_eq hlen.symm), List.take_of_length_le
        (Nat.le_of_eq hlen), hchars]
    rfl

theorem append_containers (b : StringBuilder) (text : Bytes) :
    (b.append text).containers = b.containers := by
  rw [StringBuilder.append]
  split <;> rfl

theorem Matches.fail (hmatches : Matches buffer b) (text : Bytes) :
    Matches { buffer with failed := true } (b.append text) :=
  ⟨hmatches.inside, hmatches.capacity, hmatches.containers.trans (append_containers b text).symm, nofun⟩

/-- One call writes inside the block, whatever it holds. -/
theorem append?_matches (hrealloc : Reallocates realloc) (hmatches : Matches buffer b) (text : Bytes) :
    ∃ buffer', buffer.append? realloc text = some buffer' ∧ Matches buffer' (b.append text) := by
  have hinside : buffer.length ≤ buffer.block.length := by
    rcases hmatches.inside with h | h <;> omega
  have hcapacity := hmatches.capacity
  rw [Buffer.append?]
  by_cases hskip : buffer.failed = true ∨ text.length = 0
  · rw [if_pos hskip]
    refine ⟨buffer, rfl, hmatches.inside, hcapacity,
      hmatches.containers.trans (append_containers b text).symm, fun hok => ?_⟩
    have hempty : text = [] :=
      List.eq_nil_of_length_eq_zero (hskip.resolve_left (Bool.eq_false_iff.1 hok))
    rw [hempty, Heap.append_nil]
    exact hmatches.text hok
  rw [if_neg hskip]
  by_cases hlong : text.length > maxSize - buffer.length - 1
  · rw [if_pos hlong]
    exact ⟨_, rfl, hmatches.fail text⟩
  rw [if_neg hlong]
  dsimp only
  by_cases hgrow : buffer.length + text.length + 1 > buffer.block.length
  · rw [if_pos hgrow]
    -- the new block has room, and the old text in front
    have hneeded : buffer.length + text.length + 1 ≤ maxSize := by
      rcases hmatches.inside with h | h <;> omega
    generalize hstart : (if buffer.block.length < 64 then 64 else buffer.block.length) = start
    have hpos : 0 < start ∧ start ≤ maxSize := by
      rw [← hstart]
      split
      · exact ⟨by decide, by decide⟩
      · exact ⟨by omega, hcapacity⟩
    have hle := growCapacity_le (buffer.length + text.length + 1) hneeded hpos.2
    have hroom := le_growCapacity hpos.1
      (show _ ≤ start + (buffer.length + text.length + 1) from Nat.le_add_left _ _)
    cases hblock : realloc buffer.block
        (Buffer.growCapacity (buffer.length + text.length + 1) (buffer.length + text.length + 1) start) with
    | none => exact ⟨_, rfl, hmatches.fail text⟩
    | some block =>
      obtain ⟨hsize, hprefix⟩ := hrealloc _ _ _ hblock
      refine store?_matches (by omega) (by omega) hmatches.containers fun hok => ?_
      obtain ⟨hb, hchars⟩ := hmatches.text hok
      obtain ⟨rest, hrest⟩ := hprefix (by omega)
      exact ⟨hb, by rw [← hrest, List.take_append_of_le_length hinside, hchars]⟩
  · rw [if_neg hgrow]
    exact store?_matches (by omega) hcapacity hmatches.containers hmatches.text

/-- **No call of a traversal writes past the end.** -/
theorem Matches.run (hrealloc : Reallocates realloc) (hmatches : Matches buffer b)
    (hsteps : b.Steps steps b') :
    ∃ buffer', buffer.run realloc steps = some buffer' ∧ Matches buffer' b' := by
  induction hsteps generalizing buffer with
  | nil => exact ⟨buffer, rfl, hmatches⟩
  | append _ ih =>
    obtain ⟨buffer', hcall, hmatches'⟩ := append?_matches hrealloc hmatches _
    obtain ⟨buffer'', hrun, hmatches''⟩ := ih hmatches'
    exact ⟨buffer'', by rw [Buffer.run, List.foldlM_cons, Buffer.step?, hcall]; exact hrun, hmatches''⟩
  | fail _ ih =>
    exact ih ⟨hmatches.inside, hmatches.capacity, hmatches.containers, nofun⟩
  | @enter b b' r steps hlt _ ih =>
    have hroom : buffer.containers.length < 64 := hmatches.containers ▸ hlt
    have hnoted : Matches { buffer with containers := buffer.containers ++ [r] }
        { b with containers := b.containers ++ [r] } :=
      ⟨hmatches.inside, hmatches.capacity, by rw [← hmatches.containers], hmatches.text⟩
    obtain ⟨buffer', hrun, hmatches'⟩ := ih hnoted
    exact ⟨buffer', by rw [Buffer.run, List.foldlM_cons, Buffer.step?, if_pos hroom]; exact hrun, hmatches'⟩

/-! ### The traversal -/

theorem StringBuilder.Steps.trans {b'' : StringBuilder} (h : b.Steps steps b') (h' : b'.Steps steps' b'') :
    b.Steps (steps ++ steps') b'' := by
  induction h with
  | nil => exact h'
  | append _ ih => exact .append (ih h')
  | fail _ ih => exact .fail (ih h')
  | enter hlt _ ih => exact .enter hlt (ih h')

/-- One builder is made of the other by calls. -/
def Reached (b b' : StringBuilder) : Prop := ∃ steps, b.Steps steps b'

theorem Reached.refl (b : StringBuilder) : Reached b b := ⟨[], .nil⟩

theorem Reached.trans {b'' : StringBuilder} (h : Reached b b') (h' : Reached b' b'') : Reached b b'' := by
  obtain ⟨steps, hsteps⟩ := h
  obtain ⟨steps', hsteps'⟩ := h'
  exact ⟨steps ++ steps', hsteps.trans hsteps'⟩

theorem Reached.append (h : Reached b b') (text : Bytes) : Reached b (b'.append text) :=
  h.trans ⟨[.append text], .append .nil⟩

theorem reached_items {α : Type} {item : StringBuilder → α → StringBuilder}
    (hitem : ∀ b x, Reached b (item b x)) (b : StringBuilder) (xs : List α) : Reached b (b.items item xs) := by
  have hrest : ∀ (xs : List α) (b' : StringBuilder), Reached b b' →
      Reached b (xs.foldl (fun b y => item (b.append (ascii ", ")) y) b') := by
    intro xs
    induction xs with
    | nil => exact fun b' h => h
    | cons x xs ih => exact fun b' h => ih _ ((h.append _).trans (hitem _ x))
  cases xs with
  | nil => exact .refl b
  | cons x xs => exact hrest xs _ (hitem b x)

/-- The items of a container behind its opening, with the container noted or not. -/
theorem reached_container {α : Type} {item : StringBuilder → α → StringBuilder}
    (hitem : ∀ b x, Reached b (item b x)) (h : Reached b b') (text text' : Bytes) (xs : List α) :
    Reached b (((b'.append text).items item xs).append text') :=
  ((h.append text).trans (reached_items hitem _ xs)).append text'

theorem reached_enter {r : Ref} (hlt : ¬b.containers.length ≥ 64) :
    Reached b { b with containers := b.containers ++ [r] } :=
  ⟨[.enter r], .enter (by omega) .nil⟩

theorem reached_stringifyObject (C : CLib) (h : Heap) {item : StringBuilder → Value → Bool → StringBuilder}
    (hitem : ∀ b v q, Reached b (item b v q)) (b : StringBuilder) (r : Ref) (q : Bool) :
    Reached b (h.stringifyObject C item b r q) := by
  have happend : ∀ text, Reached b (b.append text) := fun text => (Reached.refl b).append text
  have hentry : ∀ (text : Bytes) (q' : Bool) (b : StringBuilder) (e : HashEntry),
      Reached b (item ((item b e.key false).append text) e.value q') := fun text q' b e =>
    ((hitem b e.key false).append text).trans (hitem _ _ _)
  rw [Heap.stringifyObject]
  cases hr : h.get? r with
  | none => exact happend _
  | some o =>
    cases o with
    | javaObject j =>
      dsimp only
      split
      · exact reached_container (fun b x => hitem b x false) (.refl b) _ _ _
      · exact reached_container (hentry _ false) (.refl b) _ _ _
      · split
        · split_ifs
          · exact hitem _ _ _
          · exact happend _
        · exact happend _
    | array a =>
      dsimp only
      split_ifs with hvalid hmet hlt
      · exact ⟨[.fail], .fail .nil⟩
      · exact happend _
      · exact happend _
      · exact reached_container (fun b x => hitem b x true) (reached_enter hlt) _ _ _
    | hash t =>
      dsimp only
      split_ifs with hmet hlt
      · exact happend _
      · exact happend _
      · exact reached_container (hentry _ true) (reached_enter hlt) _ _ _
    | continuation c =>
      dsimp only
      split
      · exact hitem _ _ _
      · exact happend _
    | keyValue key value => exact ((hitem _ _ _).append _).trans (hitem _ _ _)
    | tainted v => exact hitem _ _ _
    | _ => exact happend _

/-- The traversal of any graph is made of calls. -/
theorem reached_stringifyValue (C : CLib) (h : Heap) (n : ℕ) (b : StringBuilder) (v : Value) (q : Bool) :
    Reached b (h.stringifyValue C n b v q) := by
  induction n generalizing b v q with
  | zero => exact (Reached.refl b).append _
  | succ n ih =>
    rw [Heap.stringifyValue]
    split
    · exact .refl b
    · exact (Reached.refl b).append _
    · exact (Reached.refl b).append _
    · exact reached_stringifyObject C h ih b _ q

end

/-! ### The law -/

open Heap (Printable Renders)

/-- Every graph with no more than 64 arrays and hashes and no way to a value over more than 32 others is
written as its rendering. -/
def StringifyLaw (C : CLib) (h : Heap) (S : Set Value) : Prop :=
  ∀ v ∈ S, ∀ F : List Ref, F.length ≤ 64 → (∀ r, .obj r ∈ S → (h.containerMark? r).isSome → r ∈ F) →
    ∀ out met, Renders C h 33 [] [.value v false] out met → out.length < 2 ^ 32 →
      h.vmStringify C v = some out

/-- **A value of a graph has a rendering, which is what `slp_vm_stringify` returns if the views in the
graph are valid; and no value is written past the end of the memory.** -/
theorem stringifyLaw_of_valid (C : CLib) (h : Heap) (S : Set Value) (hS : Printable C h S)
    (hvalid : ∀ r, .obj r ∈ S → h.viewIsValid r = true) (realloc : Bytes → ℕ → Option Bytes)
    (hrealloc : Reallocates realloc) :
    (∀ v ∈ S, ∃ n out met, Renders C h n [] [.value v false] out met) ∧ StringifyLaw C h S ∧
      ∀ h' v, ∃ steps buffer, StringBuilder.Steps {} steps (Heap.stringifyValue C h' 33 {} v false) ∧
        Buffer.run realloc {} steps = some buffer ∧
        Matches buffer (Heap.stringifyValue C h' 33 {} v false) := by
  refine ⟨fun v hv => Heap.exists_renders hS _ v hv false [] (Nat.le_refl _),
    fun v hv F hF hcover out met hps hlength => hps.vmStringify_eq hS hv hvalid hF hcover hlength,
    fun h' v => ?_⟩
  obtain ⟨steps, hsteps⟩ := reached_stringifyValue C h' 33 {} v false
  have hempty : Matches {} {} := ⟨.inl rfl, Nat.zero_le _, rfl, fun _ => ⟨rfl, rfl⟩⟩
  obtain ⟨buffer, hrun, hmatches⟩ := hempty.run hrealloc hsteps
  exact ⟨steps, buffer, hsteps, hrun, hmatches⟩

/-- An array that is its own element. -/
def ownElement : Heap := [⟨0, false, .array { elements := [.obj 0], count := 1 }⟩]

/-- A view of an array that was changed later. -/
def staleView : Heap :=
  [⟨0, false, .array { count := 0, mutationVersion := 1 }⟩, ⟨1, false, .array { viewSource := some 0 }⟩]

/-- A graph of nothing but an array and its elements. -/
theorem printable_array {C : CLib} {h : Heap} {r : Ref} {a : ArrayObj} (hr : h.get? r = some (.array a))
    (ha : ∀ v ∈ a.live, v = .obj r) : Printable C h {.obj r} where
  kind := by
    rintro v rfl
    exact .inr ⟨r, _, rfl, hr, rfl⟩
  inside := by
    rintro v rfl w ⟨r', hr', hget | ⟨x, hget⟩⟩
    all_goals
      cases hr'
      rw [hr] at hget
      cases hget
  array := by
    intro r' a' hr' hget v hv
    cases hr'
    rw [hr] at hget
    cases hget
    exact ha v hv
  hash := by
    intro r' t hr' hget
    cases hr'
    rw [hr] at hget
    cases hget
  chains := by
    rintro v rfl
    refine .intro _ ?_
    rintro w ⟨r', hr', hget | ⟨x, hget⟩⟩
    all_goals
      cases hr'
      rw [hr] at hget
      cases hget

/-- A block of the size that begins as the old one does. -/
def resize (block : Bytes) (size : ℕ) : Option Bytes := some ((block ++ List.replicate size 0).take size)

theorem reallocates_resize : Reallocates resize := by
  intro block size block' hblock
  cases hblock
  refine ⟨?_, fun hle => ?_⟩
  · rw [List.length_take, List.length_append, List.length_replicate]
    omega
  · rw [List.take_append, List.take_of_length_le hle]
    exact List.prefix_append _ _

/-- The array with itself in it is written once, and by its number in itself. -/
theorem stringifyLaw_of_valid_ownElement :
    (∀ v ∈ ({.obj 0} : Set Value), ∃ n out met, Renders
      ⟨fun _ _ => [], fun _ => [], fun _ => none, fun _ => none, fun _ => 0⟩ ownElement n []
      [.value v false] out met) ∧
    StringifyLaw ⟨fun _ _ => [], fun _ => [], fun _ => none, fun _ => none, fun _ => 0⟩ ownElement {.obj 0} ∧
    ∀ h' v, ∃ steps buffer, StringBuilder.Steps {} steps (Heap.stringifyValue
        ⟨fun _ _ => [], fun _ => [], fun _ => none, fun _ => none, fun _ => 0⟩ h' 33 {} v false) ∧
      Buffer.run resize {} steps = some buffer ∧
      Matches buffer (Heap.stringifyValue
        ⟨fun _ _ => [], fun _ => [], fun _ => none, fun _ => none, fun _ => 0⟩ h' 33 {} v false) := by
  refine stringifyLaw_of_valid _ ownElement {.obj 0} (printable_array (r := 0) rfl ?_) ?_ _ reallocates_resize
  · intro v hv
    exact List.mem_singleton.1 hv
  · rintro r hr
    cases hr
    rfl

/-- A view of a changed array has a rendering and is not written. -/
theorem not_stringifyLaw_staleView :
    ¬StringifyLaw ⟨fun _ _ => [], fun _ => [], fun _ => none, fun _ => none, fun _ => 0⟩ staleView
      {.obj 1} := by
  intro hlaw
  have hrender : Renders ⟨fun _ _ => [], fun _ => [], fun _ => none, fun _ => none, fun _ => 0⟩ staleView 33 []
      [.value (.obj 1) false] (ascii "@(" ++ (ascii ")" ++ []) ++ []) [1] :=
    .array rfl List.not_mem_nil (.text (.text .nil)) .nil
  have htext := hlaw (.obj 1) rfl [1] (by decide) (fun r hr _ => by cases hr; exact List.mem_cons_self) _ _
    hrender (by decide)
  exact absurd htext (by decide)

end Slp
