import Mathlib

/-!
# Computations over a state that may fail and keep the state they failed in

`StateErr σ α` models a C function that returns either a value or an error code: the state changes
made before an error return stay made. `wp` is its weakest precondition, for a postcondition that
sees both outcomes, and the rules below are what the proofs about such functions are built from:
one equation for each way of combining computations.

`zoom` runs a computation over a part of a larger state, so that a function written over the small
state leaves the rest of the large one alone by construction.
-/

/-- A computation over a state `σ` that returns a value or fails, with the state either way. -/
def StateErr (σ α : Type) : Type := σ → Option α × σ

namespace StateErr

variable {σ τ α β : Type}

instance : Monad (StateErr σ) where
  pure a := fun s ↦ (some a, s)
  bind x f := fun s ↦
    match x s with
    | (none, s') => (none, s')
    | (some a, s') => f a s'

/-- The error return. -/
def fail : StateErr σ α := fun s ↦ (none, s)

/-- Read the state. -/
def get : StateErr σ σ := fun s ↦ (some s, s)

/-- Change the state. -/
def modify (f : σ → σ) : StateErr σ Unit := fun s ↦ (some (), f s)

/-- Run a computation and hand its outcome, error included, to the caller. -/
def attempt (x : StateErr σ α) : StateErr σ (Option α) := fun s ↦ (some (x s).1, (x s).2)

/-- Return the error unless the condition holds. -/
def guard (p : Prop) [Decidable p] : StateErr σ Unit := if p then pure () else fail

/-- The success value of an option, the error return otherwise. -/
def ofOption : Option α → StateErr σ α
  | some a => pure a
  | none => fail

/-- Run a computation on a component of a larger state. -/
def zoom (view : τ → σ) (update : τ → σ → τ) (x : StateErr σ α) : StateErr τ α := fun t ↦
  ((x (view t)).1, update t (x (view t)).2)

/-- `for (k = lo; k < lo + n; k++) body(k)`, stopping at the first error. -/
def forUp (body : ℕ → StateErr σ Unit) : ℕ → ℕ → StateErr σ Unit
  | _, 0 => pure ()
  | lo, n + 1 => do
    body lo
    forUp body (lo + 1) n

/-- `body` on the elements of a list in order, stopping at the first error. -/
def forEach (body : α → StateErr σ Unit) : List α → StateErr σ Unit
  | [] => pure ()
  | a :: l => do
    body a
    forEach body l

/-! ### Running the combinators -/

@[simp] theorem pure_apply (a : α) (s : σ) : (pure a : StateErr σ α) s = (some a, s) := rfl

@[simp] theorem fail_apply (s : σ) : (fail : StateErr σ α) s = (none, s) := rfl

@[simp] theorem modify_apply (f : σ → σ) (s : σ) : modify f s = (some (), f s) := rfl

@[simp] theorem attempt_apply (x : StateErr σ α) (s : σ) :
    attempt x s = (some (x s).1, (x s).2) := rfl

@[simp] theorem zoom_apply (view : τ → σ) (update : τ → σ → τ) (x : StateErr σ α) (t : τ) :
    zoom view update x t = ((x (view t)).1, update t (x (view t)).2) := rfl

@[simp] theorem ofOption_some (a : α) : (ofOption (some a) : StateErr σ α) = pure a := rfl

@[simp] theorem ofOption_none : (ofOption none : StateErr σ α) = fail := rfl

@[simp] theorem guard_true {p : Prop} [Decidable p] (h : p) :
    (guard p : StateErr σ Unit) = pure () := if_pos h

@[simp] theorem guard_false {p : Prop} [Decidable p] (h : ¬p) :
    (guard p : StateErr σ Unit) = fail := if_neg h

/-- What running a sequence means. -/
theorem bind_apply (x : StateErr σ α) (f : α → StateErr σ β) (s : σ) :
    (x >>= f) s = match x s with
      | (none, s') => (none, s')
      | (some a, s') => f a s' := rfl

/-- A run that is known by its outcome, with the state it ends in. -/
theorem eq_of_fst_eq {x : StateErr σ α} {s : σ} {r : Option α} (h : (x s).1 = r) :
    x s = (r, (x s).2) := Prod.ext h rfl

/-- The next statement runs on the value and the state the first one left. -/
theorem bind_of_eq_some {x : StateErr σ α} {f : α → StateErr σ β} {s s' : σ} {a : α}
    (h : x s = (some a, s')) : (x >>= f) s = f a s' := by
  rw [bind_apply, h]

/-- An error return skips the rest. -/
theorem bind_of_eq_none {x : StateErr σ α} {f : α → StateErr σ β} {s s' : σ}
    (h : x s = (none, s')) : (x >>= f) s = (none, s') := by
  rw [bind_apply, h]

@[simp] theorem pure_bind' (a : α) (f : α → StateErr σ β) : (pure a >>= f) = f a := rfl

@[simp] theorem fail_bind (f : α → StateErr σ β) : ((fail : StateErr σ α) >>= f) = fail := rfl

@[simp] theorem get_bind (f : σ → StateErr σ β) (s : σ) : ((get : StateErr σ σ) >>= f) s = f s s :=
  rfl

@[simp] theorem modify_bind (g : σ → σ) (f : Unit → StateErr σ β) (s : σ) :
    (modify g >>= f) s = f () (g s) := rfl

@[simp] theorem attempt_bind (x : StateErr σ α) (f : Option α → StateErr σ β) (s : σ) :
    (attempt x >>= f) s = f (x s).1 (x s).2 := rfl

/-- Sequencing is associative. -/
theorem bind_assoc' {γ : Type} (x : StateErr σ α) (f : α → StateErr σ β) (g : β → StateErr σ γ) :
    (x >>= f) >>= g = x >>= fun a ↦ f a >>= g := by
  funext s
  simp only [bind_apply]
  rcases x s with ⟨_ | a, s'⟩ <;> rfl

/-- A last statement that returns nothing can be left out. -/
theorem bind_unit (x : StateErr σ Unit) : (x >>= fun _ ↦ pure ()) = x := by
  funext s
  rw [bind_apply]
  rcases x s with ⟨_ | a, s'⟩ <;> rfl

/-- A successful sequence is two successful steps. -/
theorem bind_eq_some_iff {x : StateErr σ α} {f : α → StateErr σ β} {s s'' : σ} {b : β} :
    (x >>= f) s = (some b, s'') ↔ ∃ a s', x s = (some a, s') ∧ f a s' = (some b, s'') := by
  rw [bind_apply]
  rcases hx : x s with ⟨_ | a, s'⟩
  · simp
  · simp

/-- A run that succeeds has passed the check in front of it. -/
theorem guard_bind_eq_some_iff {p : Prop} [Decidable p] {f : Unit → StateErr σ β} {s s' : σ}
    {b : β} : (guard p >>= f) s = (some b, s') ↔ p ∧ f () s = (some b, s') := by
  by_cases h : p
  · simp [h]
  · simp [h]

/-- A conditional in front of other statements. -/
theorem ite_bind_eq_some {p : Prop} [Decidable p] {x y : StateErr σ α} {f : α → StateErr σ β} {s s'' : σ}
    {b : β} (h : (if p then x >>= f else y >>= f) s = (some b, s'')) :
    ∃ a s', (if p then x else y) s = (some a, s') ∧ f a s' = (some b, s'') := by
  by_cases hp : p
  · rw [if_pos hp] at h ⊢
    exact bind_eq_some_iff.1 h
  · rw [if_neg hp] at h ⊢
    exact bind_eq_some_iff.1 h

/-- Where the value of an option could be taken there was one, and the state is as it was. -/
theorem ofOption_eq_some {o : Option α} {a : α} {s s' : σ} (h : (ofOption o : StateErr σ α) s = (some a, s')) :
    o = some a ∧ s = s' := by
  cases o with
  | none => simp at h
  | some a' =>
    obtain ⟨ha, rfl⟩ := Prod.mk.inj h
    exact ⟨ha, rfl⟩

/-- Statements that leave the state leave it together. -/
theorem bind_snd {x : StateErr σ α} {f : α → StateErr σ β} {s : σ} (hx : (x s).2 = s)
    (hf : ∀ a, (f a s).2 = s) : ((x >>= f) s).2 = s := by
  rw [bind_apply]
  rcases h : x s with ⟨_ | a, s'⟩
  · rw [h] at hx
    exact hx
  · rw [h] at hx
    obtain rfl : s' = s := hx
    exact hf a

/-- A check leaves the state. -/
theorem guard_snd (p : Prop) [Decidable p] (s : σ) : ((guard p : StateErr σ Unit) s).2 = s := by
  by_cases h : p <;> simp [h]

/-! ### Weakest preconditions -/

/-- Running `x` from `s` ends in an outcome and a state that satisfy `Q`. -/
def wp (x : StateErr σ α) (Q : Option α → σ → Prop) (s : σ) : Prop := Q (x s).1 (x s).2

/-- What must hold after the first of two statements, for `Q` to hold after both. -/
def andThen (f : α → StateErr σ β) (Q : Option β → σ → Prop) : Option α → σ → Prop
  | none, s => Q none s
  | some a, s => wp (f a) Q s

@[simp] theorem andThen_some (f : α → StateErr σ β) (Q : Option β → σ → Prop) (a : α) (s : σ) :
    andThen f Q (some a) s = wp (f a) Q s := rfl

@[simp] theorem wp_pure (a : α) (Q : Option α → σ → Prop) (s : σ) :
    wp (pure a) Q s ↔ Q (some a) s := Iff.rfl

@[simp] theorem wp_fail (Q : Option α → σ → Prop) (s : σ) : wp fail Q s ↔ Q none s := Iff.rfl

@[simp] theorem wp_modify (f : σ → σ) (Q : Option Unit → σ → Prop) (s : σ) :
    wp (modify f) Q s ↔ Q (some ()) (f s) := Iff.rfl

@[simp] theorem wp_get (Q : Option σ → σ → Prop) (s : σ) : wp get Q s ↔ Q (some s) s := Iff.rfl

/-- The weakest precondition of a sequence. -/
theorem wp_bind (x : StateErr σ α) (f : α → StateErr σ β) (Q : Option β → σ → Prop) (s : σ) :
    wp (x >>= f) Q s ↔ wp x (andThen f Q) s := by
  unfold wp
  rw [bind_apply]
  rcases x s with ⟨_ | a, s'⟩ <;> rfl

/-- The rule of consequence. -/
theorem wp_mono {x : StateErr σ α} {Q R : Option α → σ → Prop} {s : σ} (h : wp x Q s)
    (hQR : ∀ r s', Q r s' → R r s') : wp x R s :=
  hQR _ _ h

/-- Sequencing: a specification of the first statement, then the rest from its postcondition. -/
theorem wp_seq {x : StateErr σ α} {f : α → StateErr σ β} {P : Option α → σ → Prop}
    {Q : Option β → σ → Prop} {s : σ} (hx : wp x P s)
    (hnone : ∀ s', P none s' → Q none s')
    (hsome : ∀ a s', P (some a) s' → wp (f a) Q s') : wp (x >>= f) Q s := by
  rw [wp_bind]
  refine wp_mono hx fun r s' hr ↦ ?_
  cases r with
  | none => exact hnone s' hr
  | some a => exact hsome a s' hr

/-- A first statement that is known to succeed. -/
theorem wp_bind_of_eq_some {x : StateErr σ α} {f : α → StateErr σ β} {Q : Option β → σ → Prop}
    {s s' : σ} {a : α} (hx : x s = (some a, s')) (h : wp (f a) Q s') : wp (x >>= f) Q s := by
  rwa [wp, bind_of_eq_some hx]

/-- A first statement that is known to fail. -/
theorem wp_bind_of_eq_none {x : StateErr σ α} {f : α → StateErr σ β} {Q : Option β → σ → Prop}
    {s s' : σ} (hx : x s = (none, s')) (h : Q none s') : wp (x >>= f) Q s := by
  rwa [wp, bind_of_eq_none hx]

/-- The weakest precondition of a run that is known. -/
theorem wp_of_eq {x : StateErr σ α} {Q : Option α → σ → Prop} {s s' : σ} {r : Option α}
    (h : x s = (r, s')) : wp x Q s ↔ Q r s' := by
  rw [wp, h]

/-! ### Counted loops -/

/-- A loop over the entries of an array is a loop over the list of them. -/
theorem forUp_eq_forEach (body : α → StateErr σ Unit) (entry : ℕ → α) (lo n : ℕ) :
    forUp (fun i ↦ body (entry i)) lo n = forEach body ((List.range' lo n).map entry) := by
  induction n generalizing lo with
  | zero => rfl
  | succ n ih => rw [forUp, ih, List.range'_succ, List.map_cons, forEach]

end StateErr
