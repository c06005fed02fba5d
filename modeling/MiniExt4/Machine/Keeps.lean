import MiniExt4.Machine.StateErr

/-!
# What a computation leaves alone

`Keeps f x`: whether `x` succeeds or fails, it does not change `f` of the state. The rules follow the
combinators of `StateErr`, so that a function built from statements that keep `f` keeps it as well.

The failing outcome is part of it on purpose. An error return of the source leaves what was changed before,
so a frame condition that held of successful calls only would say nothing about the callers that ignore
errors. `Keeps.get_bind` hands the state that was read to the rest of the computation; the other rules are
one for each way of building a statement.
-/

namespace StateErr

variable {σ τ ρ α β : Type} {f : σ → ρ}

/-- `x` does not change `f` of the state. -/
structure Keeps (f : σ → ρ) (x : StateErr σ α) : Prop where
  snd_eq : ∀ s, f (x s).2 = f s

namespace Keeps

/-- Returning a value changes nothing. -/
theorem pure (a : α) : Keeps f (Pure.pure a : StateErr σ α) := ⟨fun _ ↦ rfl⟩

/-- An error return changes nothing. -/
theorem fail : Keeps f (StateErr.fail : StateErr σ α) := ⟨fun _ ↦ rfl⟩

/-- Reading the state changes nothing. -/
theorem get : Keeps f (StateErr.get : StateErr σ σ) := ⟨fun _ ↦ rfl⟩

/-- A sequence keeps what both of its statements keep, also where the first one fails. -/
theorem bind {x : StateErr σ α} {g : α → StateErr σ β} (hx : Keeps f x) (hg : ∀ a, Keeps f (g a)) :
    Keeps f (x >>= g) := by
  refine ⟨fun s ↦ ?_⟩
  rcases h : x s with ⟨_ | a, s'⟩
  · rw [bind_of_eq_none h, ← hx.snd_eq s, h]
  · rw [bind_of_eq_some h, (hg a).snd_eq s', ← hx.snd_eq s, h]

/-- A statement that begins by reading the state. -/
theorem get_bind {g : σ → StateErr σ β} (hg : ∀ s, Keeps f (g s)) : Keeps f (StateErr.get >>= g) :=
  get.bind hg

/-- Catching an error keeps what the computation keeps. -/
theorem attempt {x : StateErr σ α} (hx : Keeps f x) : Keeps f (StateErr.attempt x) :=
  ⟨hx.snd_eq⟩

/-- A check changes nothing. -/
theorem guard (p : Prop) [Decidable p] : Keeps f (StateErr.guard p) := by
  unfold StateErr.guard
  split
  · exact pure ()
  · exact fail

/-- Taking the value out of an option changes nothing. -/
theorem ofOption (o : Option α) : Keeps f (StateErr.ofOption o : StateErr σ α) := by
  cases o with
  | none => exact fail
  | some a => exact pure a

/-- A conditional keeps what both branches keep. -/
theorem ite {p : Prop} [Decidable p] {x y : StateErr σ α} (hx : Keeps f x) (hy : Keeps f y) :
    Keeps f (if p then x else y) := by
  split
  · exact hx
  · exact hy

end Keeps

end StateErr
