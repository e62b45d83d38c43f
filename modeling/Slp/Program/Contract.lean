import Mathlib.Tactic.Common

/-!
# Contracts of programs that may fault

A program `ExceptT ε (StateM σ) α` runs from a state to a state, and to a value or a fault.
`Ends p s Q E` says how the run of `p` from `s` ends.

A `Contract` is what a family of programs agrees on: a condition on the state they start in, a
relation from there to the state they end in, and one to the state of a fault.  The relation
composes and keeps the condition, so that a program made of parts that meet the contract meets it
as well (`Contract.Meets.bind`), and a proof about a program follows its text.  `Contract.Steady`
leaves out the value.
-/

namespace Slp.Program

variable {ε σ α β : Type}

/-- The run of a program ends in a value and a state with `Q`, or in a fault and a state with
`E`. -/
def Ends (p : ExceptT ε (StateM σ) α) (s : σ) (Q : α → σ → Prop) (E : ε → σ → Prop) : Prop :=
  match p s with
  | (.ok a, t) => Q a t
  | (.error e, t) => E e t

section Ends

variable {Q Q' : α → σ → Prop} {R : β → σ → Prop} {E E' : ε → σ → Prop} {s : σ}

@[simp]
theorem ends_pure {a : α} : Ends (pure a : ExceptT ε (StateM σ) α) s Q E ↔ Q a s := Iff.rfl

@[simp]
theorem ends_throw {e : ε} : Ends (throw e : ExceptT ε (StateM σ) α) s Q E ↔ E e s := Iff.rfl

@[simp]
theorem ends_modify {f : σ → σ} {Q : Unit → σ → Prop} :
    Ends (modify f : ExceptT ε (StateM σ) Unit) s Q E ↔ Q ⟨⟩ (f s) := Iff.rfl

theorem ends_bind {p : ExceptT ε (StateM σ) α} {f : α → ExceptT ε (StateM σ) β} :
    Ends (p >>= f) s R E ↔ Ends p s (fun a t => Ends (f a) t R E) E := by
  have h : (p >>= f) s = match p s with
      | (.ok a, t) => f a t
      | (.error e, t) => (.error e, t) := by
    show (ExceptT.bind p f) s = _
    simp only [ExceptT.bind, ExceptT.mk, bind, StateT.bind]
    obtain ⟨_ | _, t⟩ := p s <;> rfl
  unfold Ends
  rw [h]
  obtain ⟨_ | _, t⟩ := p s <;> rfl

theorem Ends.mono {p : ExceptT ε (StateM σ) α} (h : Ends p s Q E)
    (hQ : ∀ a t, Q a t → Q' a t) (hE : ∀ e t, E e t → E' e t) : Ends p s Q' E' := by
  unfold Ends at h ⊢
  split
  · next a t hp => rw [hp] at h; exact hQ a t h
  · next e t hp => rw [hp] at h; exact hE e t h

@[simp]
theorem ends_get_bind {f : σ → ExceptT ε (StateM σ) β} :
    Ends (get >>= f) s R E ↔ Ends (f s) s R E := Iff.rfl

end Ends

/-! ### Contracts -/

structure Contract (ε σ : Type) where
  pre : σ → Prop
  rel : σ → σ → Prop
  fault : σ → ε → σ → Prop
  refl : ∀ {s}, pre s → rel s s
  trans : ∀ {s t u}, rel s t → rel t u → rel s u
  keeps : ∀ {s t}, pre s → rel s t → pre t
  late : ∀ {s t e u}, rel s t → fault t e u → fault s e u

namespace Contract

variable {C C' : Contract ε σ} {p : ExceptT ε (StateM σ) α} {s : σ} {P Q : α → σ → Prop}
  {R : β → σ → Prop}

/-- From `s`, where it may run, the program ends as the contract says, and a value with `Q`. -/
def Meets (C : Contract ε σ) (p : ExceptT ε (StateM σ) α) (s : σ) (Q : α → σ → Prop) : Prop :=
  C.pre s → Ends p s (fun a t => C.rel s t ∧ Q a t) (C.fault s)

theorem Meets.pure {a : α} (h : Q a s) : C.Meets (Pure.pure a) s Q :=
  fun hs => ends_pure.2 ⟨C.refl hs, h⟩

/-- The rule of composition: the second part starts where the first one ended. -/
theorem Meets.bind {f : α → ExceptT ε (StateM σ) β} (hp : C.Meets p s P)
    (hf : ∀ a t, C.pre t → C.rel s t → P a t → C.Meets (f a) t R) : C.Meets (p >>= f) s R := by
  intro hs
  rw [ends_bind]
  refine (hp hs).mono (fun a t ⟨hst, ha⟩ => ?_) fun _ _ h => h
  have ht := C.keeps hs hst
  exact (hf a t ht hst ha ht).mono (fun b u ⟨htu, hb⟩ => ⟨C.trans hst htu, hb⟩)
    fun _ _ h => C.late hst h

theorem Meets.get_bind {f : σ → ExceptT ε (StateM σ) β} (h : C.Meets (f s) s R) :
    C.Meets (get >>= f) s R := h

theorem Meets.modify {f : σ → σ} {Q : Unit → σ → Prop} (h : C.pre s → C.rel s (f s) ∧ Q ⟨⟩ (f s)) :
    C.Meets (modify f) s Q := h

theorem Meets.throw {e : ε} (h : C.pre s → C.fault s e s) : C.Meets (throw e) s Q := h

theorem Meets.map {f : α → β} (h : C.Meets p s fun a t => R (f a) t) : C.Meets (f <$> p) s R := by
  have hmap : f <$> p = p >>= fun a => Pure.pure (f a) := rfl
  rw [hmap]
  exact h.bind fun a t _ _ ha => Meets.pure ha

theorem Meets.mono (h : C.Meets p s P) (hPQ : ∀ a t, C.rel s t → P a t → Q a t) :
    C.Meets p s Q :=
  fun hs => (h hs).mono (fun a t ⟨hst, ha⟩ => ⟨hst, hPQ a t hst ha⟩) fun _ _ h => h

theorem Meets.ite {c : Prop} [Decidable c] {q : ExceptT ε (StateM σ) α}
    (hp : c → C.Meets p s Q) (hq : ¬c → C.Meets q s Q) : C.Meets (if c then p else q) s Q := by
  split
  · exact hp ‹_›
  · exact hq ‹_›

/-- Two branches that go on in the same way. -/
theorem Meets.ite_bind {c : Prop} [Decidable c] {q : ExceptT ε (StateM σ) α}
    {f : α → ExceptT ε (StateM σ) β} (hp : c → C.Meets p s P) (hq : ¬c → C.Meets q s P)
    (hf : ∀ a t, C.pre t → C.rel s t → P a t → C.Meets (f a) t R) :
    C.Meets (if c then p >>= f else q >>= f) s R :=
  .ite (fun h => (hp h).bind hf) fun h => (hq h).bind hf

/-- The state a program starts in may be taken to meet the condition. -/
theorem Meets.of_pre (h : C.pre s → C.Meets p s Q) : C.Meets p s Q := fun hs => h hs hs

/-- From one contract to another that asks for no less and promises no more. -/
theorem Meets.weaken (h : C.Meets p s Q) (hpre : C'.pre s → C.pre s)
    (hrel : ∀ t, C.rel s t → C'.rel s t) (hfault : ∀ e t, C.fault s e t → C'.fault s e t) :
    C'.Meets p s Q :=
  fun hs => (h (hpre hs)).mono (fun _ t ⟨hst, ha⟩ => ⟨hrel t hst, ha⟩) hfault

/-- The program meets the contract from every state, whatever value it ends in. -/
def Steady (C : Contract ε σ) (p : ExceptT ε (StateM σ) α) : Prop :=
  ∀ s, C.Meets p s fun _ _ => True

namespace Steady

theorem pure (a : α) : C.Steady (Pure.pure a) := fun _ => Meets.pure trivial

theorem bind {f : α → ExceptT ε (StateM σ) β} (hp : C.Steady p) (hf : ∀ a, C.Steady (f a)) :
    C.Steady (p >>= f) :=
  fun s => (hp s).bind fun a t _ _ _ => hf a t

theorem get : C.Steady get := fun _ hs => ⟨C.refl hs, trivial⟩

theorem map {f : α → β} (hp : C.Steady p) : C.Steady (f <$> p) := fun s => (hp s).map

theorem ite {c : Prop} [Decidable c] {q : ExceptT ε (StateM σ) α} (hp : C.Steady p)
    (hq : C.Steady q) : C.Steady (if c then p else q) :=
  fun s => .ite (fun _ => hp s) fun _ => hq s

/-- Two branches that go on in the same way. -/
theorem ite_bind {c : Prop} [Decidable c] {q : ExceptT ε (StateM σ) α}
    {f : α → ExceptT ε (StateM σ) β} (hp : C.Steady p) (hq : C.Steady q) (hf : ∀ a, C.Steady (f a)) :
    C.Steady (if c then p >>= f else q >>= f) :=
  .ite (hp.bind hf) (hq.bind hf)

end Steady

end Contract

end Slp.Program
