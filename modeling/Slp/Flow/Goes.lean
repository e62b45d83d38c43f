import Slp.Flow.Command

/-!
# Where the runs of a machine go

`Goes step Final n c S` : every configuration in `S` can be reached from `c`, and every run from `c`
to a final configuration passes through `S` after `n` steps or more.  So `S` may take the place of
`c` when it is asked where the runs end (`Goes.reaches_iff`).  The rules compose: `Goes.bind` for
what comes next, `Goes.loop` for an iteration that is run again and again.
-/

namespace Slp

namespace Flow

variable {γ : Type*} {step : γ → γ → Prop} {Final : γ → Prop}

/-- A run of a number of steps. -/
inductive Steps (step : γ → γ → Prop) : ℕ → γ → γ → Prop where
  | refl (c : γ) : Steps step 0 c c
  | head {n : ℕ} {c d e : γ} : step c d → Steps step n d e → Steps step (n + 1) c e

theorem Steps.exists_of_reaches {c d : γ} (h : Relation.ReflTransGen step c d) :
    ∃ n, Steps step n c d := by
  induction h using Relation.ReflTransGen.head_induction_on with
  | refl => exact ⟨0, .refl d⟩
  | head h _ ih =>
    obtain ⟨n, hn⟩ := ih
    exact ⟨n + 1, .head h hn⟩

theorem Steps.reaches {n : ℕ} {c d : γ} (h : Steps step n c d) : Relation.ReflTransGen step c d := by
  induction h with
  | refl => exact .refl
  | head h _ ih => exact .head h ih

/-- The configurations in `S` can be reached, and no run ends without passing one after `n` steps
or more. -/
structure Goes (step : γ → γ → Prop) (Final : γ → Prop) (n : ℕ) (c : γ) (S : Set γ) : Prop where
  reaches : ∀ d ∈ S, Relation.ReflTransGen step c d
  passes : ∀ k f, Final f → Steps step k c f → ∃ d ∈ S, ∃ m, m + n ≤ k ∧ Steps step m d f

namespace Goes

variable {n m : ℕ} {c : γ} {S : Set γ}

theorem refl (c : γ) : Goes step Final 0 c {c} :=
  ⟨fun _ hd => hd ▸ .refl, fun k _ _ h => ⟨c, rfl, k, Nat.le_refl k, h⟩⟩

theorem mono (h : Goes step Final n c S) (hmn : m ≤ n) : Goes step Final m c S :=
  ⟨h.reaches, fun k f hf hk => by
    obtain ⟨d, hd, l, hl, hrun⟩ := h.passes k f hf hk
    exact ⟨d, hd, l, by omega, hrun⟩⟩

/-- One step. -/
theorem of_step (hc : ¬Final c) (hS : ∀ d, step c d ↔ d ∈ S) : Goes step Final 1 c S := by
  refine ⟨fun d hd => .single ((hS d).2 hd), fun k f hf hk => ?_⟩
  cases hk with
  | refl => exact absurd hf hc
  | head h hrun => exact ⟨_, (hS _).1 h, _, Nat.le_refl _, hrun⟩

/-- What comes next. -/
theorem bind {T : Set γ} (h : Goes step Final n c S)
    (hd : ∀ d ∈ S, ∃ U ⊆ T, Goes step Final m d U) (hT : ∀ e ∈ T, ∃ d ∈ S,
      Relation.ReflTransGen step d e) : Goes step Final (n + m) c T := by
  refine ⟨fun e he => ?_, fun k f hf hk => ?_⟩
  · obtain ⟨d, hd, hde⟩ := hT e he
    exact (h.reaches d hd).trans hde
  · obtain ⟨d, hS, l, hl, hrun⟩ := h.passes k f hf hk
    obtain ⟨U, hU, hgoes⟩ := hd d hS
    obtain ⟨e, he, i, hi, hrun⟩ := hgoes.passes l f hf hrun
    exact ⟨e, hU he, i, by omega, hrun⟩

theorem trans {d : γ} (h : Goes step Final n c {d}) (h' : Goes step Final m d S) :
    Goes step Final (n + m) c S :=
  h.bind (fun _ hd => ⟨S, subset_rfl, hd ▸ h'⟩) fun e he => ⟨d, rfl, h'.reaches e he⟩

/-- What comes next, one result of the first part at a time. -/
theorem bind_image {α β : Type*} {A : Set α} {f : α → γ} {g : β → γ} {K : α → Set β}
    (h : Goes step Final n c (f '' A)) (hK : ∀ x ∈ A, Goes step Final m (f x) (g '' K x)) :
    Goes step Final (n + m) c (g '' ⋃ x ∈ A, K x) := by
  refine h.bind (fun d ⟨x, hx, hd⟩ => ⟨g '' K x, ?_, hd ▸ hK x hx⟩) fun e ⟨y, hy, he⟩ => ?_
  · exact Set.image_mono (Set.subset_biUnion_of_mem hx)
  · obtain ⟨x, hx, hy⟩ := Set.mem_iUnion₂.1 hy
    exact ⟨f x, ⟨x, hx, rfl⟩, (hK x hx).reaches e ⟨y, hy, he⟩⟩

/-- The runs that end go on from where the machine goes. -/
theorem reaches_iff (h : Goes step Final n c S) {f : γ} (hf : Final f) :
    Relation.ReflTransGen step c f ↔ ∃ d ∈ S, Relation.ReflTransGen step d f := by
  constructor
  · intro hrun
    obtain ⟨k, hk⟩ := Steps.exists_of_reaches hrun
    obtain ⟨d, hd, l, -, hrun⟩ := h.passes k f hf hk
    exact ⟨d, hd, hrun.reaches⟩
  · rintro ⟨d, hd, hrun⟩
    exact (h.reaches d hd).trans hrun

end Goes

/-! ### Commands -/

section

variable {σ μ : Type*} {a b pass : Command σ} {c : γ} {f g : Result σ → γ} {s : σ}

namespace Goes

variable {n m : ℕ}

/-- The results of `a` are left where `f` says, and `b` goes on from the one that is done. -/
theorem seq (ha : Goes step Final n c (f '' a s))
    (hb : ∀ s', .done s' ∈ a s → Goes step Final m (f (.done s')) (g '' b s'))
    (hsame : ∀ r, (∀ s', r ≠ .done s') → f r = g r) :
    Goes step Final n c (g '' Command.seq a b s) := by
  refine ha.bind_image (m := 0) fun r hr => ?_
  cases r with
  | done s' => exact (hb s' hr).mono (Nat.zero_le _)
  | _ =>
    change Goes step Final 0 _ (g '' {_})
    rw [Set.image_singleton, hsame _ (by simp)]
    exact refl _

/-- `a` as the body of a loop with a step. -/
theorem through (ha : Goes step Final n c (f '' a s)) (hcont : ∀ s, f (.cont s) = f (.done s)) :
    Goes step Final n c (f '' Command.through a s) := by
  have himage : f '' Command.through a s = f '' a s := by
    rw [Command.through, Set.image_image]
    refine Set.image_congr fun r _ => ?_
    cases r with
    | cont s => exact (hcont s).symm
    | _ => rfl
  rwa [himage]

/-- A test and what it decides between; `v` is where the machine is after the test. -/
theorem choose {test : σ → Set (Verdict σ)} {v : Verdict σ → γ}
    (ht : Goes step Final n c (v '' test s))
    (ha : ∀ s', .jump s' ∈ test s → Goes step Final m (v (.jump s')) (g '' a s'))
    (hb : ∀ s', .fall s' ∈ test s → Goes step Final m (v (.fall s')) (g '' b s'))
    (hthrew : ∀ s', v (.threw s') = g (.threw s')) (hleft : ∀ s', v (.left s') = g (.left s')) :
    Goes step Final n c (g '' Command.choose test a b s) := by
  refine ht.bind_image (m := 0) fun x hx => ?_
  cases x with
  | jump s' => exact (ha s' hx).mono (Nat.zero_le _)
  | fall s' => exact (hb s' hx).mono (Nat.zero_le _)
  | threw s' =>
    change Goes step Final 0 _ (g '' {_})
    rw [Set.image_singleton, hthrew s']
    exact refl _
  | left s' =>
    change Goes step Final 0 _ (g '' {_})
    rw [Set.image_singleton, hleft s']
    exact refl _

/-- A command with its handler. -/
theorem attempt {mark : σ → μ} {caught : μ → σ → σ} (ha : Goes step Final n c (f '' a s))
    (hb : ∀ s', .threw s' ∈ a s → Goes step Final m (f (.threw s')) (g '' b (caught (mark s) s')))
    (hsame : ∀ r, (∀ s', r ≠ .threw s') → Goes step Final m (f r) {g r}) :
    Goes step Final n c (g '' Command.attempt mark caught a b s) := by
  refine ha.bind_image (m := 0) fun r hr => ?_
  cases r with
  | threw s' => exact (hb s' hr).mono (Nat.zero_le _)
  | _ =>
    change Goes step Final 0 _ (g '' {_})
    rw [Set.image_singleton]
    exact (hsame _ (by simp)).mono (Nat.zero_le _)

/-- A loop from where its iterations start; they end where it takes a step back. -/
theorem loop {start back : σ → γ} (hpass : ∀ s, Goes step Final 0 (start s) (f '' pass s))
    (hback : ∀ s, Goes step Final 1 (back s) {start s}) (hdone : ∀ s, f (.done s) = back s)
    (hcont : ∀ s, f (.cont s) = back s) (hbrk : ∀ s, f (.brk s) = g (.done s))
    (hthrew : ∀ s, f (.threw s) = g (.threw s)) (hleft : ∀ s, f (.left s) = g (.left s)) (s : σ) :
    Goes step Final 0 (start s) (g '' Command.loop pass s) := by
  have hnext : ∀ r s', s' ∈ Result.next r → f r = back s' := by
    intro r s' hs
    cases r with
    | done s => rw [hdone, Set.mem_singleton_iff.1 hs]
    | cont s => rw [hcont, Set.mem_singleton_iff.1 hs]
    | _ => cases hs
  have hover : ∀ r r', r' ∈ Result.ending r → f r = g r' := by
    intro r r' hr
    cases r with
    | brk s => rw [Set.mem_singleton_iff.1 hr, hbrk]
    | threw s => rw [Set.mem_singleton_iff.1 hr, hthrew]
    | left s => rw [Set.mem_singleton_iff.1 hr, hleft]
    | _ => cases hr
  have hagain : ∀ s s', Relation.ReflTransGen (Command.Again pass) s s' →
      Relation.ReflTransGen step (start s) (start s') := by
    intro s s' h
    induction h with
    | refl => exact .refl
    | tail _ h ih =>
      obtain ⟨r, hr, hs⟩ := h
      refine (ih.trans ((hpass _).reaches _ ⟨r, hr, rfl⟩)).trans ?_
      rw [hnext r _ hs]
      exact (hback _).reaches _ rfl
  refine ⟨?_, fun k => ?_⟩
  · rintro d ⟨r, ⟨s', hs, x, hx, hr⟩, rfl⟩
    rw [← hover x r hr]
    exact (hagain s s' hs).trans ((hpass s').reaches _ ⟨x, hx, rfl⟩)
  · -- every iteration that is followed by another one takes a step
    induction k using Nat.strongRecOn generalizing s with
    | _ k ih =>
      intro e he hrun
      obtain ⟨d, ⟨x, hx, rfl⟩, l, hl, hrun⟩ := (hpass s).passes k e he hrun
      by_cases hstop : ∃ r, r ∈ x.ending
      · obtain ⟨r, hr⟩ := hstop
        exact ⟨g r, ⟨r, Command.mem_loop.2 ⟨x, hx, .inl hr⟩, rfl⟩, l, hl, hover x r hr ▸ hrun⟩
      · obtain ⟨s', hs⟩ : ∃ s', s' ∈ x.next := by
          cases x with
          | done s' => exact ⟨s', rfl⟩
          | cont s' => exact ⟨s', rfl⟩
          | _ => exact absurd ⟨_, rfl⟩ hstop
        rw [hnext x s' hs] at hrun
        obtain ⟨_, rfl, i, hi, hrun⟩ := (hback s').passes l e he hrun
        obtain ⟨d, ⟨r, hr, rfl⟩, j, hj, hrun⟩ := ih i (by omega) s' e he hrun
        exact ⟨g r, ⟨r, Command.mem_loop.2 ⟨x, hx, .inr ⟨s', hs, hr⟩⟩, rfl⟩, j, by omega, hrun⟩

end Goes

end

end Flow

end Slp
