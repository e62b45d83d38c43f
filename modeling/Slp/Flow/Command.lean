import Mathlib.Data.Set.Lattice.Image
import Mathlib.Logic.Relation

/-!
# Structured control flow

A command takes a state to the ways in which it may end: it is done, it leaves the loop or the
iteration it stands in, it throws, or it leaves the function.  A command that does not end, or gets
stuck, has no result.  Sequence, choice, handlers and loops are operations on commands; a test
decides which of two commands is next, unless it throws or leaves the function.
-/

namespace Slp

namespace Flow

/-- How a command ends. -/
inductive Result (σ : Type*) where
  | done (s : σ)
  | brk (s : σ)
  | cont (s : σ)
  | threw (s : σ)
  | left (s : σ)

/-- The results of a command in each state. -/
abbrev Command (σ : Type*) := σ → Set (Result σ)

/-- How a test ends. -/
inductive Verdict (σ : Type*) where
  | jump (s : σ)
  | fall (s : σ)
  | threw (s : σ)
  | left (s : σ)

variable {σ μ : Type*}

namespace Result

/-- What follows when the command before is done. -/
def andThen (b : Command σ) : Result σ → Set (Result σ)
  | .done s => b s
  | r => {r}

/-- An iteration that is left early is done. -/
def resumed : Result σ → Result σ
  | .cont s => .done s
  | r => r

/-- The handler `b` runs in the state that `caught` makes of what was thrown. -/
def rescued (caught : σ → σ) (b : Command σ) : Result σ → Set (Result σ)
  | .threw s => b (caught s)
  | r => {r}

/-- The state from which the next iteration starts. -/
def next : Result σ → Set σ
  | .done s | .cont s => {s}
  | _ => ∅

/-- How a loop ends whose last iteration ends so. -/
def ending : Result σ → Set (Result σ)
  | .brk s => {.done s}
  | .threw s => {.threw s}
  | .left s => {.left s}
  | _ => ∅

end Result

/-- The command that a test is followed by. -/
def Verdict.choose (a b : Command σ) : Verdict σ → Set (Result σ)
  | .jump s => a s
  | .fall s => b s
  | .threw s => {.threw s}
  | .left s => {.left s}

namespace Command

def skip : Command σ := fun s => {.done s}

def brk : Command σ := fun s => {.brk s}

def cont : Command σ := fun s => {.cont s}

/-- `a`, and then `b` if `a` is done. -/
def seq (a b : Command σ) : Command σ := fun s => ⋃ r ∈ a s, r.andThen b

/-- `a` as the body of a loop with a step. -/
def through (a : Command σ) : Command σ := fun s => Result.resumed '' a s

/-- `a` or `b`, as the test says. -/
def choose (test : σ → Set (Verdict σ)) (a b : Command σ) : Command σ :=
  fun s => ⋃ v ∈ test s, v.choose a b

/-- `a` with the handler `b`, for which `mark` keeps part of the state before `a`. -/
def attempt (mark : σ → μ) (caught : μ → σ → σ) (a b : Command σ) : Command σ :=
  fun s => ⋃ r ∈ a s, r.rescued (caught (mark s)) b

/-- One iteration takes the first state to the second. -/
def Again (pass : Command σ) (s s' : σ) : Prop := ∃ r ∈ pass s, s' ∈ r.next

/-- `pass` until it breaks. -/
def loop (pass : Command σ) : Command σ :=
  fun s => {r | ∃ s', Relation.ReflTransGen (Again pass) s s' ∧ ∃ x ∈ pass s', r ∈ x.ending}

theorem mem_seq {a b : Command σ} {s : σ} {r : Result σ} :
    r ∈ seq a b s ↔ ∃ x ∈ a s, r ∈ x.andThen b := by
  simp [seq]

/-- Nothing more to do makes no difference. -/
theorem seq_skip (a : Command σ) : seq a skip = a := by
  funext s
  ext r
  rw [mem_seq]
  constructor
  · rintro ⟨x, hx, hr⟩
    cases x <;> exact Set.mem_singleton_iff.1 hr ▸ hx
  · intro hr
    refine ⟨r, hr, ?_⟩
    cases r <;> exact rfl

/-- A loop is its first iteration, and then itself unless that was the last one. -/
theorem mem_loop {pass : Command σ} {s : σ} {r : Result σ} :
    r ∈ loop pass s ↔ ∃ x ∈ pass s, r ∈ x.ending ∨ ∃ s' ∈ x.next, r ∈ loop pass s' := by
  constructor
  · rintro ⟨s', hs, x, hx, hr⟩
    obtain rfl | ⟨t, ⟨y, hy, ht⟩, hs⟩ := hs.cases_head
    · exact ⟨x, hx, .inl hr⟩
    · exact ⟨y, hy, .inr ⟨t, ht, s', hs, x, hx, hr⟩⟩
  · rintro ⟨x, hx, hr | ⟨s', hs, t, ht, y, hy, hr⟩⟩
    · exact ⟨s, .refl, x, hx, hr⟩
    · exact ⟨t, .head ⟨x, hx, hs⟩ ht, y, hy, hr⟩

end Command

end Flow

end Slp
