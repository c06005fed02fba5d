import Mathlib

/-!
# Lists of entries under keys

An index node of a search tree is a list of entries, each under the key its range begins at. A key is
looked up in the last entry whose own key is not above it, or else in the first one (`locate`), so the
key of the first entry says nothing about where its range begins. `Divides` says that the entries
divide up a range at the keys of all but the first, and `Divides.replace` is the context of one entry:
what divides up its range can take its place.

The first key is left out of `Divides` because the code looks no different at it: an insertion below the
first key goes to the first entry, whatever that key is. So a lookup is right as soon as the other keys are,
and an insertion at the front of a node need not lower any key for it.

`Focus` takes a list apart at the entry that a lookup chooses. Statements about an insertion into a tree are
then inductions on the depth with one step: a change below the chosen entry, in the context of the others.
-/

namespace Keyed

variable {α : Type} (key : α → ℕ)

/-- The key of the first entry, or `hi`. -/
def headKey (hi : ℕ) (l : List α) : ℕ := l.head?.elim hi key

/-- The keys do not decrease. -/
abbrev Sorted (l : List α) : Prop := l.Pairwise fun a b ↦ key a ≤ key b

/-- The entry to look up `x` in. -/
def locate (x : ℕ) : List α → Option α
  | [] => none
  | [a] => some a
  | a :: b :: l => if x < key b then some a else locate x (b :: l)

/-- `c` is the entry for `x`, between `pre` and `post`. -/
structure Focus (x : ℕ) (pre : List α) (c : α) (post : List α) : Prop where
  le : pre ≠ [] → key c ≤ x
  lt : ∀ p ∈ post.head?, x < key p

/-- The entries divide up the keys from `lo` to `hi`: `P` holds of the range of each. -/
def Divides (P : ℕ → ℕ → α → Prop) (hi : ℕ) : ℕ → List α → Prop
  | _, [] => True
  | lo, a :: l => P lo (headKey key hi l) a ∧ Divides P hi (headKey key hi l) l

variable {key} {P : ℕ → ℕ → α → Prop} {lo hi x : ℕ} {A B l pre post new : List α} {a b c : α}

/-- A list that is not empty begins at the key of its first entry. -/
@[simp] theorem headKey_nil : headKey key hi [] = hi := rfl

@[simp] theorem headKey_cons : headKey key hi (a :: l) = key a := rfl

/-- The first key of two lists in a row. -/
theorem headKey_append : headKey key hi (A ++ B) = headKey key (headKey key hi B) A := by
  cases A <;> rfl

/-! ### Looking up -/

/-- In a list that is not empty some entry is the one for `x`. -/
theorem exists_focus (key : α → ℕ) (x : ℕ) (hne : l ≠ []) :
    ∃ pre c post, l = pre ++ c :: post ∧ Focus key x pre c post := by
  induction l with
  | nil => exact absurd rfl hne
  | cons a l ih =>
    cases l with
    | nil => exact ⟨[], a, [], rfl, fun h ↦ absurd rfl h, by simp⟩
    | cons b l =>
      by_cases hb : x < key b
      · exact ⟨[], a, b :: l, rfl, fun h ↦ absurd rfl h, by simpa⟩
      · obtain ⟨pre, c, post, heq, hfocus⟩ := ih (by simp)
        refine ⟨a :: pre, c, post, by rw [heq, List.cons_append], fun _ ↦ ?_, hfocus.lt⟩
        cases pre with
        | nil =>
          obtain ⟨rfl, rfl⟩ : b = c ∧ l = post := by simpa using heq
          omega
        | cons p pre => exact hfocus.le (by simp)

/-- Looking up does not depend on what the entries carry besides their keys. -/
theorem locate_map {β : Type} (f : β → α) (l : List β) :
    locate key x (l.map f) = (locate (fun b ↦ key (f b)) x l).map f := by
  induction l with
  | nil => rfl
  | cons b l ih =>
    cases l with
    | nil => rfl
    | cons c l =>
      rw [List.map_cons, List.map_cons, locate, locate]
      split
      · rfl
      · exact ih

/-- The first entry may be looked at twice. -/
theorem locate_cons_self (hs : Sorted key (a :: l)) :
    locate key x (a :: a :: l) = locate key x (a :: l) := by
  rw [locate]
  split
  · cases l with
    | nil => rfl
    | cons b l =>
      have hab : key a ≤ key b := (List.pairwise_cons.1 hs).1 b (by simp)
      rw [locate, if_pos (by omega)]
  · rfl

/-- A list of two parts is looked up in the second part from its first key on. -/
theorem locate_append (hne : A ≠ []) (hle : ∀ a ∈ A, key a ≤ key b) :
    locate key x (A ++ b :: l) = if x < key b then locate key x A else locate key x (b :: l) := by
  induction A with
  | nil => exact absurd rfl hne
  | cons a A ih =>
    cases A with
    | nil => rfl
    | cons a' A =>
      have ha' : key a' ≤ key b := hle a' (by simp)
      rw [List.cons_append, List.cons_append, locate, locate, ← List.cons_append,
        ih (by simp) fun c hc ↦ hle c (List.mem_cons_of_mem _ hc)]
      by_cases hx : x < key a'
      · simp only [if_pos hx, if_pos (show x < key b by omega)]
      · simp only [if_neg hx]

/-- What is looked up is an entry of the list. -/
theorem locate_mem (h : locate key x l = some a) : a ∈ l := by
  induction l with
  | nil => simp [locate] at h
  | cons b l ih =>
    cases l with
    | nil =>
      obtain rfl : b = a := by simpa [locate] using h
      simp
    | cons c l =>
      rw [locate] at h
      split at h
      · obtain rfl : b = a := by simpa using h
        simp
      · exact List.mem_cons_of_mem _ (ih h)

/-- What is put in the place of the entry for `x` is where `x` is looked up. -/
theorem Focus.locate_replace (h : Focus key x pre c post) (hs : Sorted key (pre ++ (new ++ post)))
    (hnew : new.head?.map key = some (key c)) :
    locate key x (pre ++ (new ++ post)) = locate key x new := by
  obtain ⟨n, new, rfl, hn⟩ : ∃ n l, new = n :: l ∧ key n = key c := by
    cases new with
    | nil => simp at hnew
    | cons n l => exact ⟨n, l, rfl, by simpa using hnew⟩
  have htail : locate key x (n :: new ++ post) = locate key x (n :: new) := by
    cases post with
    | nil => rw [List.append_nil]
    | cons p post =>
      have hle := (List.pairwise_append.1 (List.pairwise_append.1 hs).2.1).2.2
      rw [locate_append (by simp) fun a ha ↦ hle a ha p (by simp), if_pos (h.lt p (by simp))]
  rcases eq_or_ne pre [] with rfl | hne
  · exact htail
  · have hle := (List.pairwise_append.1 hs).2.2
    have := h.le hne
    rw [List.cons_append, locate_append hne fun a ha ↦ hle a ha n (by simp), if_neg (by omega),
      ← List.cons_append, htail]

/-- The entry for `x` is the one that a lookup of `x` finds. -/
theorem Focus.locate (h : Focus key x pre c post) (hs : Sorted key (pre ++ c :: post)) :
    locate key x (pre ++ c :: post) = some c := by
  rw [← List.singleton_append] at hs ⊢
  exact h.locate_replace hs rfl

/-- Putting entries in the place of one changes only where the keys of that one are looked up. -/
theorem locate_replace (hs : Sorted key (pre ++ c :: post)) (hs' : Sorted key (pre ++ (new ++ post)))
    (hnew : new.head?.map key = some (key c)) (x : ℕ) :
    (locate key x (pre ++ c :: post) = some c ∧
      locate key x (pre ++ (new ++ post)) = locate key x new) ∨
    ∃ a ∈ pre ++ post, locate key x (pre ++ c :: post) = some a ∧
      locate key x (pre ++ (new ++ post)) = some a := by
  obtain ⟨n, new, rfl, hn⟩ : ∃ n l, new = n :: l ∧ key n = key c := by
    cases new with
    | nil => simp at hnew
    | cons n l => exact ⟨n, l, rfl, by simpa using hnew⟩
  -- first for an entry at the front, where `post` may be empty
  have htail : (locate key x (c :: post) = some c ∧
      locate key x (n :: new ++ post) = locate key x (n :: new)) ∨
      ∃ a ∈ post, locate key x (c :: post) = some a ∧
        locate key x (n :: new ++ post) = some a := by
    cases post with
    | nil => exact .inl ⟨rfl, by rw [List.append_nil]⟩
    | cons p post =>
      have hle := (List.pairwise_append.1 (List.pairwise_append.1 hs').2.1).2.2
      have hc : key c ≤ key p := (List.pairwise_cons.1 (List.pairwise_append.1 hs).2.1).1 p (by simp)
      have hold := locate_append (x := x) (A := [c]) (b := p) (l := post) (by simp) (by simpa)
      rw [List.singleton_append] at hold
      rw [hold, locate_append (by simp) fun a ha ↦ hle a ha p (by simp)]
      by_cases hx : x < key p
      · rw [if_pos hx, if_pos hx]
        exact .inl ⟨rfl, rfl⟩
      · simp only [if_neg hx]
        obtain ⟨pre, a, post', heq, hfocus⟩ := exists_focus key x (List.cons_ne_nil p post)
        have hloc : locate key x (p :: post) = some a := by
          rw [heq]
          exact hfocus.locate (heq ▸ (List.pairwise_cons.1 (List.pairwise_append.1 hs).2.1).2)
        exact .inr ⟨a, locate_mem hloc, hloc, hloc⟩
  rcases eq_or_ne pre [] with rfl | hne
  · exact htail
  · have hle := (List.pairwise_append.1 hs).2.2
    rw [List.cons_append, locate_append hne fun a ha ↦ hle a ha c (by simp),
      locate_append hne fun a ha ↦ hn ▸ hle a ha c (by simp), hn, ← List.cons_append]
    -- a key below that of the entry is looked up in `pre`, which stays
    by_cases hx : x < key c
    · simp only [if_pos hx]
      obtain ⟨pre₁, a, post₁, heq, hfocus⟩ := exists_focus key x hne
      have hloc : locate key x pre = some a := by
        rw [heq]
        exact hfocus.locate (heq ▸ (List.pairwise_append.1 hs).1)
      exact .inr ⟨a, List.mem_append_left _ (locate_mem hloc), hloc, hloc⟩
    · simp only [if_neg hx]
      rcases htail with h | ⟨a, ha, h⟩
      · exact .inl h
      · exact .inr ⟨a, List.mem_append_right _ ha, h⟩

/-! ### Ranges -/

/-- Two lists in a row divide the range, the second from its first key on. -/
theorem divides_append (hne : A ≠ []) : Divides key P hi lo (A ++ B) ↔
    Divides key P (headKey key hi B) lo A ∧ Divides key P hi (headKey key hi B) B := by
  induction A generalizing lo with
  | nil => exact absurd rfl hne
  | cons a A ih =>
    rcases eq_or_ne A [] with rfl | hA
    · simp [Divides]
    · rw [List.cons_append, Divides, Divides, ih hA, headKey_append, and_assoc]

/-- Where the range of an entry begins. -/
theorem Divides.focus (h : Divides key P hi lo (pre ++ c :: post)) :
    P (if pre = [] then lo else key c) (headKey key hi post) c := by
  rcases eq_or_ne pre [] with rfl | hne
  · exact h.1
  · rw [if_neg hne]
    exact ((divides_append hne).1 h).2.1

/-- The context of an entry. -/
theorem Divides.replace (h : Divides key P hi lo (pre ++ c :: post))
    (hkey : new.head?.map key = some (key c))
    (hnew : Divides key P (headKey key hi post) (if pre = [] then lo else key c) new) :
    Divides key P hi lo (pre ++ (new ++ post)) := by
  have hnewne : new ≠ [] := by
    rintro rfl
    simp at hkey
  have hhead : headKey key hi (new ++ post) = key c := by
    cases new with
    | nil => exact absurd rfl hnewne
    | cons n l => simpa using hkey
  rcases eq_or_ne pre [] with rfl | hne
  · rw [if_pos rfl] at hnew
    exact (divides_append hnewne).2 ⟨hnew, h.2⟩
  · rw [if_neg hne] at hnew
    obtain ⟨hpre, hrest⟩ := (divides_append hne).1 h
    refine (divides_append hne).2 ⟨hhead ▸ hpre, (divides_append hnewne).2 ⟨?_, hrest.2⟩⟩
    exact hhead ▸ hnew

/-- The key looked up is below the first key behind the entry. -/
theorem Focus.lt_headKey (h : Focus key x pre c post) (hx : x < hi) : x < headKey key hi post := by
  cases post with
  | nil => exact hx
  | cons p post => exact h.lt p (by simp)

/-- The range of the entry for `x` does not begin behind `x`. -/
theorem Focus.start_le (h : Focus key x pre c post) (hx : lo ≤ x) :
    (if pre = [] then lo else key c) ≤ x := by
  split
  · exact hx
  · exact h.le ‹_›

/-- A list that is not empty divides a range that is not empty. -/
theorem Divides.lt (hP : ∀ lo hi a, P lo hi a → lo < hi) (h : Divides key P hi lo l) (hne : l ≠ []) :
    lo < hi := by
  induction l generalizing lo with
  | nil => exact absurd rfl hne
  | cons a l ih =>
    obtain ⟨ha, hl⟩ := h
    rcases eq_or_ne l [] with rfl | hl'
    · exact hP _ _ _ ha
    · exact (hP _ _ _ ha).trans (ih hl hl')

/-- The keys are at most the end of the range. -/
theorem Divides.key_le (hP : ∀ lo hi a, P lo hi a → key a ≤ hi) (hlt : ∀ lo hi a, P lo hi a → lo < hi)
    (h : Divides key P hi lo l) : ∀ a ∈ l, key a ≤ hi := by
  induction l generalizing lo with
  | nil => simp
  | cons a l ih =>
    obtain ⟨ha, hl⟩ := h
    rintro b (_ | ⟨_, hb⟩)
    · rcases eq_or_ne l [] with rfl | hne
      · exact hP _ _ _ ha
      · exact (hP _ _ _ ha).trans (hl.lt hlt hne).le
    · exact ih hl b hb

/-- The keys of a division ascend. -/
theorem Divides.sorted (hP : ∀ lo hi a, P lo hi a → key a ≤ hi) (h : Divides key P hi lo l) :
    Sorted key l := by
  induction l generalizing lo with
  | nil => exact .nil
  | cons a l ih =>
    obtain ⟨ha, hl⟩ := h
    refine List.pairwise_cons.2 ⟨fun b hb ↦ ?_, ih hl⟩
    cases l with
    | nil => simp at hb
    | cons c l =>
      have hc : key a ≤ key c := hP _ _ _ ha
      rcases List.mem_cons.1 hb with rfl | hb
      · exact hc
      · exact hc.trans ((List.pairwise_cons.1 (ih hl)).1 b hb)

end Keyed
