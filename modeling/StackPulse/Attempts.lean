import Mathlib.Tactic.Common

/-!
Computations with a state that can fail. A computation ensures a property of its
results if every result has it, whatever the state, and every failure is one that is
allowed. The outcome from one state says more: a result comes with the state it leaves,
and so does a failure.
-/
namespace StackPulse.Attempts

theorem bind_ok {ε α β : Type} {x : Except ε α} {f : α → Except ε β} {b : β} :
    (x >>= f) = .ok b ↔ ∃ a, x = .ok a ∧ f a = .ok b := by
  cases x with
  | error message =>
    constructor
    · intro h
      cases h
    · rintro ⟨a, h, -⟩
      cases h
  | ok a =>
    constructor
    · exact fun h => ⟨a, rfl, h⟩
    · rintro ⟨a', h, hf⟩
      cases h
      exact hf

theorem eq_ok_of_toOption {ε α : Type} {x : Except ε α} {a : α} (h : x.toOption = some a) :
    x = .ok a := by
  cases x with
  | error e => cases h
  | ok b => exact congrArg Except.ok (Option.some.inj h)

/-- What is computed of a result shows that there is one. -/
theorem exists_ok_of_toOption {ε α β : Type} {x : Except ε α} {f : α → β} {b : β}
    (h : x.toOption.map f = some b) : ∃ a, x = .ok a ∧ f a = b := by
  obtain ⟨a, hx, hf⟩ := Option.map_eq_some_iff.mp h
  exact ⟨a, eq_ok_of_toOption hx, hf⟩

/-- Every failure of a result has a property. -/
def FailsWith {ε α : Type} (P : ε → Prop) (r : Except ε α) : Prop := ∀ e, r = .error e → P e

namespace FailsWith

variable {ε α β : Type} {P : ε → Prop} {r r' : Except ε α}

theorem ok (a : α) : FailsWith P (.ok a : Except ε α) := fun _ h => nomatch h

theorem error {e : ε} (h : P e) : FailsWith P (.error e : Except ε α) := by
  intro e' he
  cases he
  exact h

theorem bind {f : α → Except ε β} (hr : FailsWith P r)
    (hf : ∀ a, r = .ok a → FailsWith P (f a)) : FailsWith P (r >>= f) := by
  cases r with
  | error e => exact error (hr e rfl)
  | ok a => exact hf a rfl

theorem map (f : α → β) (hr : FailsWith P r) : FailsWith P (f <$> r) := by
  cases r with
  | error e => exact error (hr e rfl)
  | ok a => exact ok (f a)

theorem ite {c : Prop} [Decidable c] (h : c → FailsWith P r) (h' : ¬ c → FailsWith P r') :
    FailsWith P (if c then r else r') := by
  split
  · exact h ‹_›
  · exact h' ‹_›

theorem mono {Q : ε → Prop} (hr : FailsWith P r) (h : ∀ e, P e → Q e) : FailsWith Q r :=
  fun e he => h e (hr e he)

end FailsWith

abbrev Attempt (σ ε α : Type) := ExceptT ε (StateM σ) α

variable {σ ε α β : Type} {m : Attempt σ ε α} {f : α → Attempt σ ε β} {s s' s'' : σ}

theorem bind_of_ok {a : α} (h : m s = (.ok a, s')) : (m >>= f) s = f a s' := by
  show ExceptT.bindCont f (m s).1 (m s).2 = f a s'
  rw [h]
  rfl

theorem bind_of_error {e : ε} (h : m s = (.error e, s')) : (m >>= f) s = (.error e, s') := by
  show ExceptT.bindCont f (m s).1 (m s).2 = (.error e, s')
  rw [h]
  rfl

theorem bind_eq_ok {b : β} (h : (m >>= f) s = (.ok b, s'')) :
    ∃ a s', m s = (.ok a, s') ∧ f a s' = (.ok b, s'') := by
  rcases hm : m s with ⟨e | a, s'⟩
  · rw [bind_of_error hm] at h
    cases h
  · rw [bind_of_ok hm] at h
    exact ⟨a, s', rfl, h⟩

/-- Go on from a result or from a failure. -/
def handle (m : Attempt σ ε α) (ok : α → Attempt σ ε β) (error : ε → Attempt σ ε β) :
    Attempt σ ε β := fun s =>
  match m s with
  | (.ok a, s) => ok a s
  | (.error e, s) => error e s

theorem handle_of_ok {g : ε → Attempt σ ε β} {a : α} (h : m s = (.ok a, s')) :
    handle m f g s = f a s' := by
  unfold handle
  rw [h]

theorem handle_of_error {g : ε → Attempt σ ε β} {e : ε} (h : m s = (.error e, s')) :
    handle m f g s = g e s' := by
  unfold handle
  rw [h]

def Ensures (allowed : ε → Prop) (m : Attempt σ ε α) (P : α → Prop) : Prop :=
  ∀ s, match (m s).1 with
    | .ok a => P a
    | .error e => allowed e

variable {allowed : ε → Prop} {P Q : α → Prop}

theorem Ensures.ok (h : Ensures allowed m P) {a : α} (hm : m s = (.ok a, s')) : P a := by
  have hs := h s
  rw [hm] at hs
  exact hs

theorem Ensures.error (h : Ensures allowed m P) {e : ε} (hm : m s = (.error e, s')) :
    allowed e := by
  have hs := h s
  rw [hm] at hs
  exact hs

theorem Ensures.pure {a : α} (h : P a) : Ensures allowed (pure a : Attempt σ ε α) P := fun _ => h

theorem Ensures.throw {e : ε} (h : allowed e) :
    Ensures allowed (throw e : Attempt σ ε α) P := fun _ => h

theorem Ensures.mono (h : Ensures allowed m P) (hQ : ∀ a, P a → Q a) : Ensures allowed m Q := by
  intro s
  rcases hm : m s with ⟨e | a, s'⟩
  · exact h.error hm
  · exact hQ a (h.ok hm)

/-- What is said of a result and the state it leaves, or of a failure and its state. -/
def Outcome (Q : α → σ → Prop) (E : ε → σ → Prop) : Except ε α × σ → Prop
  | (.ok a, s) => Q a s
  | (.error e, s) => E e s

namespace Outcome

variable {Q Q' : α → σ → Prop} {E E' : ε → σ → Prop} {R : β → σ → Prop}

theorem ok {a : α} (h : Outcome Q E (m s)) (hm : m s = (.ok a, s')) : Q a s' := by
  rw [hm] at h
  exact h

theorem error {e : ε} (h : Outcome Q E (m s)) (hm : m s = (.error e, s')) : E e s' := by
  rw [hm] at h
  exact h

theorem mono (h : Outcome Q E (m s)) (hQ : ∀ a s', Q a s' → Q' a s')
    (hE : ∀ e s', E e s' → E' e s') : Outcome Q' E' (m s) := by
  rcases hm : m s with ⟨e | a, s'⟩
  · exact hE e s' (h.error hm)
  · exact hQ a s' (h.ok hm)

theorem bind (h : Outcome (fun a s' => Outcome R E (f a s')) E (m s)) :
    Outcome R E ((m >>= f) s) := by
  rcases hm : m s with ⟨e | a, s'⟩
  · rw [bind_of_error hm]
    exact h.error hm
  · rw [bind_of_ok hm]
    exact h.ok hm

theorem handle {g : ε → Attempt σ ε β}
    (h : Outcome (fun a s' => Outcome R E (f a s')) (fun e s' => Outcome R E (g e s')) (m s)) :
    Outcome R E (handle m f g s) := by
  rcases hm : m s with ⟨e | a, s'⟩
  · rw [handle_of_error hm]
    exact h.error hm
  · rw [handle_of_ok hm]
    exact h.ok hm

end Outcome

end StackPulse.Attempts
