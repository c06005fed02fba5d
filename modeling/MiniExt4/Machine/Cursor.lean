import MiniExt4.Machine.Ring

/-!
# A cursor that counts

A list is taken out part by part, and the cursor is the number of elements before the next part. Between
the parts elements that were taken out are removed from the list. A removal moves the elements behind it
up by one, but not the cursor: an element is passed over, for good, unless there was none left to pass
(`takesAll_or_skips`).

`InStep` is the state of a cursor that has passed over nothing: of the elements in the list, those before it
were taken out and no others. `Skips` is the state after a mistake: some element before the cursor was not
taken out. An operation keeps the one (`InStep.fetch`, `InStep.remove`) or leads to the other, and none
leads back (`Skips.step`), which is why the run lemma is an equivalence.
-/

/-- A list, the position in it, and what was taken out. -/
structure Cursor (α : Type*) where
  live : List α
  pos : ℕ
  out : List α

namespace Cursor

variable {α : Type*} {c : Cursor α} {a b : α} {l : List α} {n : ℕ}

/-- Take the next elements out, or remove one. -/
inductive Op (α : Type*) where
  | fetch (n : ℕ)
  | remove (a : α)

/-- What an operation does. -/
def step [BEq α] (c : Cursor α) : Op α → Cursor α
  | .fetch n =>
    { c with
      pos := min c.pos c.live.length + ((c.live.drop c.pos).take n).length
      out := c.out ++ (c.live.drop c.pos).take n }
  | .remove a => { c with live := c.live.erase a }

/-- What is removed was taken out before. -/
def Legal (c : Cursor α) : Op α → Prop
  | .fetch _ => True
  | .remove a => a ∈ c.live → a ∈ c.out

/-- Nothing is removed while there is an element ahead. -/
def NothingAhead (c : Cursor α) : Op α → Prop
  | .fetch _ => True
  | .remove a => a ∈ c.live → c.live.length ≤ c.pos

/-- What is before the position, and nothing else of the list, was taken out, each element once. -/
structure InStep (c : Cursor α) : Prop where
  nodup : c.live.Nodup
  out_nodup : c.out.Nodup
  taken : ∀ a ∈ c.live, a ∈ c.out ↔ a ∈ c.live.take c.pos

/-- An element before the position was not taken out. -/
structure Skips (c : Cursor α) : Prop where
  nodup : c.live.Nodup
  skipped : ∃ a ∈ c.live.take c.pos, a ∉ c.out

/-- Where no element is there twice, one behind the position is not before it. -/
theorem not_mem_take_of_mem_drop (h : l.Nodup) (ha : a ∈ l.drop n) : a ∉ l.take n := by
  rw [← List.take_append_drop n l] at h
  exact fun hc ↦ List.disjoint_of_nodup_append h hc ha

/-- The position after the next elements were taken out. -/
theorem take_fetch (l : List α) (p n : ℕ) :
    l.take (min p l.length + ((l.drop p).take n).length) = l.take p ++ (l.drop p).take n := by
  rcases Nat.le_or_ge l.length p with hle | hle
  · rw [List.drop_of_length_le hle, Nat.min_eq_right hle, List.take_nil, List.length_nil, Nat.add_zero,
      List.take_length, List.append_nil, List.take_of_length_le hle]
  · rw [Nat.min_eq_left hle, List.take_add, List.length_take, ← List.take_eq_take_min]

/-- Where nothing is left, all elements were taken out, each once. -/
theorem InStep.all_taken (h : c.InStep) (hend : c.live.length ≤ c.pos) (ha : a ∈ c.live) : a ∈ c.out :=
  (h.taken a ha).2 (by rwa [List.take_of_length_le hend])

/-- A listing that has not begun is in step. -/
theorem inStep_start (h : l.Nodup) : InStep ⟨l, 0, []⟩ := ⟨h, List.nodup_nil, fun _ _ ↦ by simp⟩

variable [BEq α] [LawfulBEq α]

omit [LawfulBEq α] in
/-- The position after a fetch. -/
@[simp] theorem step_fetch_pos (c : Cursor α) (n : ℕ) :
    (c.step (.fetch n)).pos = min c.pos c.live.length + ((c.live.drop c.pos).take n).length := rfl

/-- The removal of another element leaves those before the position there. -/
theorem mem_take_erase (ha : a ∈ l.take n) (hne : a ≠ b) : a ∈ (l.erase b).take n := by
  induction l generalizing n with
  | nil => simp at ha
  | cons c l ih =>
    obtain ⟨n, rfl⟩ : ∃ m, n = m + 1 := by
      rcases n with _ | n
      · simp at ha
      · exact ⟨n, rfl⟩
    rw [List.take_succ_cons, List.mem_cons] at ha
    by_cases hc : c = b
    · subst hc
      rw [List.erase_cons_head]
      have hmem := ha.resolve_left hne
      exact List.mem_of_mem_take (i := n) (by rwa [List.take_take, Nat.min_eq_left (Nat.le_succ n)])
    · rw [List.erase_cons_tail (by simpa using hc), List.take_succ_cons, List.mem_cons]
      exact ha.imp_right ih

omit [LawfulBEq α] in
/-- A fetch keeps the listing in step. -/
theorem InStep.fetch (h : c.InStep) (n : ℕ) : (c.step (.fetch n)).InStep where
  nodup := h.nodup
  out_nodup := by
    refine h.out_nodup.append (h.nodup.sublist ((List.take_sublist _ _).trans (List.drop_sublist _ _))) ?_
    intro a ha ha'
    have hdrop := List.mem_of_mem_take ha'
    exact not_mem_take_of_mem_drop h.nodup hdrop ((h.taken a (List.mem_of_mem_drop hdrop)).1 ha)
  taken a ha := by
    change a ∈ c.out ++ (c.live.drop c.pos).take n ↔ a ∈ c.live.take (c.step (.fetch n)).pos
    rw [step_fetch_pos, take_fetch, List.mem_append, List.mem_append, h.taken a ha]

/-- A removal with nothing ahead. -/
theorem InStep.remove (h : c.InStep) (hlast : a ∈ c.live → c.live.length ≤ c.pos) :
    (c.step (.remove a)).InStep where
  nodup := h.nodup.erase a
  out_nodup := h.out_nodup
  taken b hb := by
    change b ∈ c.live.erase a at hb
    change b ∈ c.out ↔ b ∈ (c.live.erase a).take c.pos
    by_cases ha : a ∈ c.live
    · have hlen := hlast ha
      have hmem := (h.taken b (List.mem_of_mem_erase hb)).2
      rw [List.take_of_length_le hlen] at hmem
      rw [List.take_of_length_le ((List.length_erase_le).trans hlen)]
      exact iff_of_true (hmem (List.mem_of_mem_erase hb)) hb
    · rw [List.erase_of_not_mem ha]
      exact h.taken b (List.mem_of_mem_erase hb)

/-- A removal with an element ahead passes it over. -/
theorem InStep.skips (h : c.InStep) (ha : a ∈ c.live) (hout : a ∈ c.out) (hahead : c.pos < c.live.length) :
    (c.step (.remove a)).Skips where
  nodup := h.nodup.erase a
  skipped := by
    have htake := (h.taken a ha).1 hout
    have hnot : c.live[c.pos] ∉ c.live.take c.pos :=
      not_mem_take_of_mem_drop h.nodup (by rw [List.drop_eq_getElem_cons hahead]; exact List.mem_cons_self)
    refine ⟨c.live[c.pos], ?_, fun hc ↦ hnot ((h.taken _ (List.getElem_mem hahead)).1 hc)⟩
    change _ ∈ (c.live.erase a).take c.pos
    have hsplit : c.live = c.live.take c.pos ++ c.live[c.pos] :: c.live.drop (c.pos + 1) := by
      rw [← List.drop_eq_getElem_cons hahead, List.take_append_drop]
    have hlen : ((c.live.take c.pos).erase a).length + 1 = c.pos := by
      have hpos := List.length_pos_of_mem htake
      have htl := List.length_take_of_le hahead.le
      rw [List.length_erase_of_mem htake]
      omega
    have herase : c.live.erase a = (c.live.take c.pos).erase a ++ c.live[c.pos] :: c.live.drop (c.pos + 1) := by
      conv_lhs => rw [hsplit]
      exact List.erase_append_left _ htake
    have htaken : (c.live.erase a).take c.pos = (c.live.take c.pos).erase a ++ [c.live[c.pos]] := by
      have hone : c.pos - ((c.live.take c.pos).erase a).length = 1 := by omega
      rw [herase, List.take_append, List.take_of_length_le (by omega), hone]
      rfl
    rw [htaken]
    simp

/-- What was passed over stays so. -/
theorem Skips.step (h : c.Skips) {op : Op α} (hop : c.Legal op) : (c.step op).Skips := by
  obtain ⟨a, ha, hout⟩ := h.skipped
  cases op with
  | fetch n =>
    refine ⟨h.nodup, a, ?_, ?_⟩
    · change a ∈ c.live.take (c.step (.fetch n)).pos
      rw [step_fetch_pos, take_fetch]
      exact List.mem_append_left _ ha
    · intro hc
      rcases List.mem_append.1 hc with hc | hc
      · exact hout hc
      · exact not_mem_take_of_mem_drop h.nodup (List.mem_of_mem_take hc) ha
  | remove b =>
    refine ⟨h.nodup.erase b, a, mem_take_erase ha ?_, hout⟩
    rintro rfl
    exact hout (hop (List.mem_of_mem_take ha))

/-- A run passes over an element exactly where it removes one with an element ahead. -/
theorem takesAll_or_skips (h : c.InStep) {ops : List (Op α)} (hops : Calls.Along step Legal ops c) :
    (Calls.Along step NothingAhead ops c ∧ (ops.foldl step c).InStep) ∨
      (¬ Calls.Along step NothingAhead ops c ∧ (ops.foldl step c).Skips) := by
  induction ops generalizing c with
  | nil => exact .inl ⟨trivial, h⟩
  | cons op ops ih =>
    obtain ⟨hop, hops⟩ := hops
    by_cases hahead : c.NothingAhead op
    · have hstep : (c.step op).InStep := by
        cases op with
        | fetch n => exact h.fetch n
        | remove a => exact h.remove hahead
      refine (ih hstep hops).imp (fun hall ↦ ⟨⟨hahead, hall.1⟩, hall.2⟩) fun hall ↦ ⟨fun hc ↦ hall.1 hc.2, hall.2⟩
    · refine .inr ⟨fun hc ↦ hahead hc.1, ?_⟩
      have hskips : (c.step op).Skips := by
        cases op with
        | fetch n => exact absurd trivial hahead
        | remove a =>
          obtain ⟨ha, hlt⟩ := not_forall.1 hahead
          exact h.skips ha (hop ha) (not_le.1 hlt)
      exact @Calls.inv_of_along _ _ step Legal Skips (fun c op hc hop ↦ Skips.step hc hop) ops _ hskips hops

end Cursor
