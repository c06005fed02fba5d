import MiniExt4.Ext4.ExtentTree
import MiniExt4.Machine.Keyed

/-!
# Insertions into an extent tree

An extent tree is a map from logical to physical blocks: `ExtTree.Maps`. `ExtTree.Inserts` says what
an insertion of an extent does to a tree apart from its bytes: the leaf takes the extent in, possibly
joined with its neighbours, or is cut in two next to it, and a cut adds an entry to the node above,
which may be cut in turn.

The entry for a subtree is looked up by keys, and the key of a first entry may be above what is mapped
below it. `ExtTree.Ordered` is the invariant that the lookups rest on; an insertion keeps it, and it
adds to the map what the extent maps and changes nothing else.

`Inserts` follows the recursion of the code from the leaf up: one entry of a node is replaced by one or by
two. The results on the map are proved in this shape, one step for the leaf and one for a node, from the
rules of `Divides` for a list under keys. No buffer occurs in this module, and none of its lemmas knows how
many entries a node has room for.
-/

namespace MiniExt4

open Keyed

namespace Extent

/-- The logical block after the extent. -/
def stop (e : Extent) : ℕ := e.eeBlock + e.eeLen

/-- The extent maps `x` to `b`. -/
def Maps (e : Extent) (x b : ℕ) : Prop :=
  e.eeBlock ≤ x ∧ x < e.stop ∧ b = e.eeStart + (x - e.eeBlock)

/-- The second extent continues the first, and together they are not too long. -/
def Joins (a b : Extent) : Prop :=
  a.stop = b.eeBlock ∧ a.eeStart + a.eeLen = b.eeStart ∧ a.eeLen + b.eeLen ≤ ext4ExtInitMaxLen

instance (a b : Extent) : Decidable (a.Joins b) := inferInstanceAs (Decidable (_ ∧ _))

/-- Both as one. -/
def join (a b : Extent) : Extent := { a with eeLen := a.eeLen + b.eeLen }

/-- Joining two extents maps what they map. -/
theorem Joins.maps_join {a b : Extent} (h : a.Joins b) {x y : ℕ} :
    (a.join b).Maps x y ↔ a.Maps x y ∨ b.Maps x y := by
  obtain ⟨hblock, hstart, -⟩ := h
  simp only [Maps, join, stop] at *
  omega

/-- The join ends where the second ends. -/
theorem Joins.stop_join {a b : Extent} (h : a.Joins b) : (a.join b).stop = b.stop := by
  obtain ⟨hblock, -, -⟩ := h
  simp only [join, stop] at *
  omega

/-- The physical blocks. -/
def blocks (e : Extent) : List ℕ := List.range' e.eeStart e.eeLen

/-- The join has the blocks of both. -/
theorem Joins.blocks_join {a b : Extent} (h : a.Joins b) :
    (a.join b).blocks = a.blocks ++ b.blocks := by
  rw [blocks, blocks, blocks, ← h.2.1, List.range'_append_1]
  rfl

end Extent

/-- Two neighbours become one extent. -/
inductive JoinStep : List Extent → List Extent → Prop
  | mk (l r : List Extent) {a b : Extent} (h : a.Joins b) :
      JoinStep (l ++ a :: b :: r) (l ++ a.join b :: r)

/-- Neighbours are joined any number of times. -/
abbrev Joined : List Extent → List Extent → Prop := Relation.ReflTransGen JoinStep

/-- A node after an insertion: one node, or two with the entry for the second. -/
inductive Grown (α : Type)
  | one (t : α)
  | two (left : α) (ix : ExtentIdx) (right : α)

namespace Grown

/-- The entries for the nodes, the first one under the entry that was there. -/
def entries {d : ℕ} (ix : ExtentIdx) : Grown (ExtTree d) → List (ExtentIdx × ExtTree d)
  | .one t => [(ix, t)]
  | .two left ix' right => [(ix, left), (ix', right)]

/-- A new entry is not under a key below `first`. -/
def KeyGe {d : ℕ} (first : ℕ) : Grown (ExtTree d) → Prop
  | .one _ => True
  | .two _ ix _ => first ≤ ix.eiBlock

/-- The blocks, that of the new node after what is below it. -/
def blocks {d : ℕ} : Grown (ExtTree d) → List ℕ
  | .one t => t.blocks
  | .two left ix right => left.blocks ++ (right.blocks ++ [ix.eiLeaf])

end Grown

namespace ExtTree

/-- The key of an entry. -/
abbrev entryKey {d : ℕ} (c : ExtentIdx × ExtTree d) : ℕ := c.1.eiBlock

/-- The tree maps the logical block `x` to `b`. -/
def Maps (x b : ℕ) : {d : ℕ} → ExtTree d → Prop
  | 0, t => ∃ e ∈ t, e.Maps x b
  | _ + 1, t => ∃ c, locate entryKey x t = some c ∧ Maps x b c.2

/-- A leaf for the logical blocks from `lo` to `hi`. The last extent may reach beyond `hi`. -/
structure Leaf (lo hi : ℕ) (t : List Extent) : Prop where
  sorted : t.Pairwise fun a b ↦ a.stop ≤ b.eeBlock
  inside : ∀ e ∈ t, lo ≤ e.eeBlock ∧ e.eeBlock < hi
  ok : ∀ e ∈ t, 0 < e.eeLen ∧ e.stop < 2 ^ 32

/-- A tree for the logical blocks from `lo` to `hi` whose first entry is under the key `first`. -/
def Ordered : {d : ℕ} → (lo first hi : ℕ) → ExtTree d → Prop
  | 0, lo, _, hi, t => Leaf lo hi t
  | _ + 1, lo, first, hi, t => t.head?.map entryKey = some first ∧
      Divides entryKey (fun lo hi c ↦ entryKey c ≤ hi ∧ lo < hi ∧ Ordered lo (entryKey c) hi c.2) hi
        lo t

/-- The extent `ex` is put into a tree. The list is that of the blocks of new nodes. -/
inductive Inserts (ex : Extent) : {d : ℕ} → ExtTree d → List ℕ → Grown (ExtTree d) → Prop
  /-- The extents after the new one begin after its end. -/
  | fits {l r t : List Extent} (hl : ∀ e ∈ l, e.eeBlock ≤ ex.eeBlock)
      (hr : ∀ e ∈ r, ex.stop ≤ e.eeBlock) (hjoin : Joined (l ++ ex :: r) t) :
      @Inserts ex 0 (l ++ r) [] (.one t)
  /-- A full leaf gets a right sibling that has only the new extent. -/
  | append {l : List Extent} {b : ℕ} (hne : l ≠ []) (hl : ∀ e ∈ l, e.eeBlock ≤ ex.eeBlock) :
      @Inserts ex 0 l [b] (.two l ⟨ex.eeBlock, b⟩ [ex])
  /-- A full leaf is cut after the new extent. -/
  | cut {l r : List Extent} {e : Extent} {b : ℕ} (hl : ∀ e ∈ l, e.eeBlock ≤ ex.eeBlock)
      (he : ex.eeBlock < e.eeBlock) :
      @Inserts ex 0 (l ++ e :: r) [b] (.two (l ++ [ex]) ⟨e.eeBlock, b⟩ (e :: r))
  /-- The entry for a new sibling is put after that for the child. -/
  | child {d : ℕ} {pre post : List (ExtentIdx × ExtTree d)} {c : ExtentIdx × ExtTree d}
      {fresh : List ℕ} {g : Grown (ExtTree d)} (hfocus : Focus entryKey ex.eeBlock pre c post)
      (h : Inserts ex c.2 fresh g) (hkey : g.KeyGe c.1.eiBlock) :
      @Inserts ex (d + 1) (pre ++ c :: post) fresh (.one (pre ++ (g.entries c.1 ++ post)))
  /-- An index node is cut anywhere. -/
  | split {d : ℕ} {pre post ls rs : List (ExtentIdx × ExtTree d)} {c y : ExtentIdx × ExtTree d}
      {fresh : List ℕ} {g : Grown (ExtTree d)} {b : ℕ}
      (hfocus : Focus entryKey ex.eeBlock pre c post) (h : Inserts ex c.2 fresh g)
      (hkey : g.KeyGe c.1.eiBlock) (hcut : pre ++ (g.entries c.1 ++ post) = ls ++ y :: rs)
      (hne : ls ≠ []) :
      @Inserts ex (d + 1) (pre ++ c :: post) (fresh ++ [b]) (.two ls ⟨y.1.eiBlock, b⟩ (y :: rs))

/-! ### Joining neighbours -/

/-- A step of joining leaves the map. -/
theorem JoinStep.maps_iff {t t' : List Extent} (h : JoinStep t t') {x b : ℕ} :
    (∃ e ∈ t', e.Maps x b) ↔ ∃ e ∈ t, e.Maps x b := by
  obtain ⟨l, r, hjoins⟩ := h
  simp only [List.mem_append, List.mem_cons, or_and_right, exists_or, exists_eq_left,
    hjoins.maps_join, or_assoc]

/-- So do any number of them. -/
theorem Joined.maps_iff {t t' : List Extent} (h : Joined t t') {x b : ℕ} :
    (∃ e ∈ t', e.Maps x b) ↔ ∃ e ∈ t, e.Maps x b := by
  induction h with
  | refl => rfl
  | tail _ hstep ih => exact (JoinStep.maps_iff hstep).trans ih

/-- The blocks stay, in their order. -/
theorem Joined.blocks {t t' : List Extent} (h : Joined t t') :
    t'.flatMap Extent.blocks = t.flatMap Extent.blocks := by
  induction h with
  | refl => rfl
  | tail _ hstep ih =>
    obtain ⟨l, r, hjoins⟩ := hstep
    rw [← ih]
    simp [hjoins.blocks_join]

/-- A leaf in order stays in order. -/
theorem Leaf.joinStep {lo hi : ℕ} {t t' : List Extent} (h : Leaf lo hi t) (hstep : JoinStep t t') :
    Leaf lo hi t' := by
  obtain ⟨l, r, hjoins⟩ := hstep
  rename_i a b
  obtain ⟨hsorted, hinside, hok⟩ := h
  have ha := hok a (by simp)
  have hb := hok b (by simp)
  refine ⟨?_, ?_, ?_⟩
  · simp only [List.pairwise_append, List.pairwise_cons, List.mem_cons] at hsorted ⊢
    obtain ⟨hl, ⟨-, hr, hrr⟩, hlr⟩ := hsorted
    refine ⟨hl, ⟨fun e he ↦ hjoins.stop_join ▸ hr e he, hrr⟩, ?_⟩
    rintro e he e' (rfl | he')
    · exact hlr e he a (.inl rfl)
    · exact hlr e he e' (.inr (.inr he'))
  · intro e he
    rcases List.mem_append.1 he with he | he
    · exact hinside e (by simp [he])
    · rcases List.mem_cons.1 he with rfl | he
      · exact hinside a (by simp)
      · exact hinside e (by simp [he])
  · intro e he
    rcases List.mem_append.1 he with he | he
    · exact hok e (by simp [he])
    · rcases List.mem_cons.1 he with rfl | he
      · refine ⟨?_, by rw [hjoins.stop_join]; exact hb.2⟩
        exact Nat.add_pos_left ha.1 _
      · exact hok e (by simp [he])

/-- So it does after any number of steps. -/
theorem Leaf.joined {lo hi : ℕ} {t t' : List Extent} (h : Leaf lo hi t) (hjoin : Joined t t') :
    Leaf lo hi t' := by
  induction hjoin with
  | refl => exact h
  | tail _ hstep ih => exact ih.joinStep hstep

/-! ### The invariant -/

variable {d lo first hi : ℕ} {ex : Extent}

/-- The bounds of a leaf can be any that hold its extents. -/
theorem Leaf.withRange {lo' hi' : ℕ} {t : List Extent} (h : Leaf lo hi t)
    (hin : ∀ e ∈ t, lo' ≤ e.eeBlock ∧ e.eeBlock < hi') : Leaf lo' hi' t := ⟨h.sorted, hin, h.ok⟩

/-- What is before a block that is not mapped ends before it. -/
theorem stop_le_of_not_maps {t : List Extent} {x : ℕ} {e : Extent} (he : e ∈ t)
    (hle : e.eeBlock ≤ x) (hfree : ∀ b, ¬ ∃ e ∈ t, e.Maps x b) : e.stop ≤ x := by
  by_contra hlt
  exact hfree _ ⟨e, he, hle, by omega, rfl⟩

/-- A new extent between those of a leaf. -/
theorem Leaf.insert {l r : List Extent} (h : Leaf lo hi (l ++ r)) (hlo : lo ≤ ex.eeBlock)
    (hhi : ex.eeBlock < hi) (hpos : 0 < ex.eeLen) (hstop : ex.stop < 2 ^ 32)
    (hl : ∀ e ∈ l, e.stop ≤ ex.eeBlock) (hr : ∀ e ∈ r, ex.stop ≤ e.eeBlock) :
    Leaf lo hi (l ++ ex :: r) := by
  obtain ⟨hsorted, hinside, hok⟩ := h
  simp only [List.pairwise_append, List.mem_append] at hsorted hinside hok
  obtain ⟨hll, hrr, hlr⟩ := hsorted
  refine ⟨?_, ?_, ?_⟩
  · simp only [List.pairwise_append, List.pairwise_cons, List.mem_cons]
    refine ⟨hll, ⟨hr, hrr⟩, ?_⟩
    rintro e he e' (rfl | he')
    · exact hl e he
    · exact hlr e he e' he'
  · simp only [List.mem_append, List.mem_cons]
    rintro e (he | rfl | he)
    · exact hinside e (.inl he)
    · exact ⟨hlo, hhi⟩
    · exact hinside e (.inr he)
  · simp only [List.mem_append, List.mem_cons]
    rintro e (he | rfl | he)
    · exact hok e (.inl he)
    · exact ⟨hpos, hstop⟩
    · exact hok e (.inr he)

/-- An index node and what is below its entries. -/
abbrev Below (d : ℕ) (lo hi : ℕ) (c : ExtentIdx × ExtTree d) : Prop :=
  entryKey c ≤ hi ∧ lo < hi ∧ Ordered lo (entryKey c) hi c.2

/-- The keys of a tree in order are sorted. -/
theorem Ordered.sorted {t : ExtTree (d + 1)} (h : Ordered lo first hi t) : Sorted entryKey t :=
  h.2.sorted fun _ _ _ hc ↦ hc.1

/-- A tree in order has an entry. -/
theorem Ordered.ne_nil {t : ExtTree (d + 1)} (h : Ordered lo first hi t) : t ≠ [] := by
  rintro rfl
  simpa using h.1

end ExtTree

namespace Grown

/-- The invariant of the nodes after an insertion: the key of the entry divides them. -/
def Ordered {d : ℕ} (lo first hi : ℕ) : Grown (ExtTree d) → Prop
  | .one t => t.Ordered lo first hi
  | .two left ix right => left.Ordered lo first ix.eiBlock ∧
      right.Ordered ix.eiBlock ix.eiBlock hi ∧ lo < ix.eiBlock ∧ ix.eiBlock < hi

/-- What the nodes map. -/
def Maps {d : ℕ} (x b : ℕ) : Grown (ExtTree d) → Prop
  | .one t => t.Maps x b
  | .two left ix right => if x < ix.eiBlock then left.Maps x b else right.Maps x b

end Grown

namespace ExtTree

variable {d lo first hi : ℕ} {ex : Extent}

/-- The nodes below an entry, and their new entry, in its place. -/
theorem Ordered.replace {pre post : List (ExtentIdx × ExtTree d)} {c : ExtentIdx × ExtTree d}
    {g : Grown (ExtTree d)} (h : @Ordered (d + 1) lo first hi (pre ++ c :: post))
    (hkey : g.KeyGe c.1.eiBlock)
    (hg : g.Ordered (if pre = [] then lo else entryKey c) (entryKey c) (headKey entryKey hi post)) :
    @Ordered (d + 1) lo first hi (pre ++ (g.entries c.1 ++ post)) := by
  obtain ⟨hfirst, hdiv⟩ := h
  have hc := hdiv.focus
  refine ⟨?_, hdiv.replace ?_ ?_⟩
  · cases pre <;> cases g <;> simpa [Grown.entries] using hfirst
  · cases g <;> rfl
  · cases g with
    | one t => exact ⟨⟨hc.1, hc.2.1, hg⟩, trivial⟩
    | two left ix right =>
      obtain ⟨hleft, hright, hlo, hhi⟩ := hg
      exact ⟨⟨hkey, hlo, hleft⟩, ⟨hhi.le, hhi, hright⟩, trivial⟩

/-- An index node cut in two. -/
theorem Ordered.cut {ls rs : List (ExtentIdx × ExtTree d)} {y : ExtentIdx × ExtTree d} {b : ℕ}
    (h : @Ordered (d + 1) lo first hi (ls ++ y :: rs)) (hne : ls ≠ []) :
    @Grown.Ordered (d + 1) lo first hi (.two ls ⟨y.1.eiBlock, b⟩ (y :: rs)) := by
  obtain ⟨hfirst, hdiv⟩ := h
  obtain ⟨hleft, hright⟩ := (divides_append hne).1 hdiv
  have hlt : ∀ lo hi (c : ExtentIdx × ExtTree d), Below d lo hi c → lo < hi := fun _ _ _ hc ↦ hc.2.1
  refine ⟨⟨?_, hleft⟩, ⟨rfl, hright⟩, hleft.lt hlt hne, hright.lt hlt (by simp)⟩
  cases ls with
  | nil => exact absurd rfl hne
  | cons a ls => exact hfirst

/-- The child an extent goes to is one for its first block. -/
theorem Ordered.focus {pre post : List (ExtentIdx × ExtTree d)} {c : ExtentIdx × ExtTree d} {x : ℕ}
    (h : @Ordered (d + 1) lo first hi (pre ++ c :: post)) (hfocus : Focus entryKey x pre c post)
    (hlo : lo ≤ x) (hhi : x < hi) :
    Ordered (if pre = [] then lo else entryKey c) (entryKey c) (headKey entryKey hi post) c.2 ∧
      (if pre = [] then lo else entryKey c) ≤ x ∧ x < headKey entryKey hi post :=
  ⟨h.2.focus.2.2, hfocus.start_le hlo, hfocus.lt_headKey hhi⟩

/-- A block is mapped where the index leads. -/
theorem Ordered.maps_focus {pre post : List (ExtentIdx × ExtTree d)} {c : ExtentIdx × ExtTree d}
    {x b : ℕ} (h : @Ordered (d + 1) lo first hi (pre ++ c :: post))
    (hfocus : Focus entryKey x pre c post) :
    @Maps x b (d + 1) (pre ++ c :: post) ↔ Maps x b c.2 := by
  simp only [Maps, hfocus.locate h.sorted, Option.some.injEq, exists_eq_left']

/-- **An insertion of a block that is not mapped keeps the invariant.** -/
theorem Inserts.ordered {t : ExtTree d} {fresh : List ℕ} {g : Grown (ExtTree d)}
    (h : Inserts ex t fresh g) (hpos : 0 < ex.eeLen) (hstop : ex.stop < 2 ^ 32)
    (ht : Ordered lo first hi t) (hlo : lo ≤ ex.eeBlock) (hhi : ex.eeBlock < hi)
    (hfree : ∀ b, ¬ t.Maps ex.eeBlock b) : g.Ordered lo first hi := by
  -- one case for each thing that can happen to a leaf, and two for a node above it
  induction h generalizing lo first hi with
  | @fits l r t hl hr hjoin =>
    exact (Leaf.insert ht hlo hhi hpos hstop
      (fun e he ↦ stop_le_of_not_maps (List.mem_append_left r he) (hl e he) hfree) hr).joined hjoin
  | @append l b hne hl =>
    have hlt : ∀ e ∈ l, e.eeBlock < ex.eeBlock := fun e he ↦ by
      have hend := stop_le_of_not_maps he (hl e he) hfree
      have := (ht.ok e he).1
      unfold Extent.stop at hend
      omega
    obtain ⟨e, he⟩ := List.exists_mem_of_ne_nil l hne
    refine ⟨ht.withRange fun e he ↦ ⟨(ht.inside e he).1, hlt e he⟩, ?_, ?_, hhi⟩
    · exact ⟨List.pairwise_singleton _ _, by simpa using hhi, by simpa using ⟨hpos, hstop⟩⟩
    · exact lt_of_le_of_lt (ht.inside e he).1 (hlt e he)
  | @cut l r e b hl he =>
    obtain ⟨hsorted, hinside, hok⟩ := ht
    -- the new extent ends its half, and the other half begins behind it
    have hend : ∀ a ∈ l, a.stop ≤ ex.eeBlock := fun a ha ↦
      stop_le_of_not_maps (List.mem_append_left _ ha) (hl a ha) hfree
    have hlast := hinside e (by simp)
    simp only [List.pairwise_append, List.pairwise_cons] at hsorted
    refine ⟨⟨?_, ?_, ?_⟩, ⟨?_, ?_, ?_⟩, ?_, hlast.2⟩
    · simp only [List.pairwise_append, List.pairwise_singleton, List.mem_singleton]
      exact ⟨hsorted.1, trivial, fun a ha b hb ↦ hb ▸ hend a ha⟩
    · simp only [List.mem_append, List.mem_singleton]
      rintro a (ha | rfl)
      · exact ⟨(hinside a (by simp [ha])).1, lt_of_le_of_lt (hl a ha) he⟩
      · exact ⟨hlo, he⟩
    · simp only [List.mem_append, List.mem_singleton]
      rintro a (ha | rfl)
      · exact hok a (by simp [ha])
      · exact ⟨hpos, hstop⟩
    · exact List.pairwise_cons.2 hsorted.2.1
    · intro a ha
      rcases List.mem_cons.1 ha with rfl | ha
      · exact ⟨le_rfl, hlast.2⟩
      · exact ⟨(Nat.le_add_right _ _).trans (hsorted.2.1.1 a ha), (hinside a (by simp [ha])).2⟩
    · exact fun a ha ↦ hok a (List.mem_append_right _ ha)
    · exact lt_of_le_of_lt hlo he
  | @child d pre post c fresh g hfocus h hkey ih =>
    obtain ⟨hc, hlo', hhi'⟩ := ht.focus hfocus hlo hhi
    exact ht.replace hkey (ih hc hlo' hhi' fun b hb ↦ hfree b ((ht.maps_focus hfocus).2 hb))
  | @split d pre post ls rs c y fresh g b hfocus h hkey hcut hne ih =>
    obtain ⟨hc, hlo', hhi'⟩ := ht.focus hfocus hlo hhi
    -- the node with one entry more is ordered, and so are its two parts
    have hfull := ht.replace hkey (ih hc hlo' hhi' fun b hb ↦ hfree b ((ht.maps_focus hfocus).2 hb))
    rw [hcut] at hfull
    exact hfull.cut hne

/-! ### The map -/

/-- `g` maps what `f` maps and what the extent maps, where the extent does not get in the way. -/
structure Adds (ex : Extent) (f g : ℕ → ℕ → Prop) : Prop where
  old : ∀ x b, f x b → g x b
  new : ∀ x b, g x b → f x b ∨ ex.Maps x b
  self : g ex.eeBlock ex.eeStart

/-- An index node maps through the nodes below an entry as they do. -/
theorem Ordered.adds_replace {pre post : List (ExtentIdx × ExtTree d)} {c : ExtentIdx × ExtTree d}
    {g : Grown (ExtTree d)} (h : @Ordered (d + 1) lo first hi (pre ++ c :: post))
    (hfocus : Focus entryKey ex.eeBlock pre c post)
    (h' : @Ordered (d + 1) lo first hi (pre ++ (g.entries c.1 ++ post)))
    (hadds : Adds ex (fun x b ↦ c.2.Maps x b) fun x b ↦ g.Maps x b) :
    Adds ex (fun x b ↦ @Maps x b (d + 1) (pre ++ c :: post)) fun x b ↦
      @Maps x b (d + 1) (pre ++ (g.entries c.1 ++ post)) := by
  have hkey : (g.entries c.1).head?.map entryKey = some (entryKey c) := by cases g <;> rfl
  have hgrown : ∀ x b, @Maps x b (d + 1) (g.entries c.1) ↔ g.Maps x b := by
    intro x b
    cases g with
    | one t => simp [Maps, Grown.entries, Grown.Maps, locate]
    | two left ix right =>
      simp only [Maps, Grown.entries, Grown.Maps, locate, entryKey]
      split <;> simp
  have hplace := locate_replace h.sorted h'.sorted hkey
  refine ⟨fun x b hx ↦ ?_, fun x b hx ↦ ?_, ?_⟩
  · rcases hplace x with ⟨hold, hnew⟩ | ⟨a, -, hold, hnew⟩
    · simp only [Maps, hold, Option.some.injEq, exists_eq_left'] at hx
      have := (hgrown x b).2 (hadds.old x b hx)
      simpa only [Maps, hnew] using this
    · simpa only [Maps, hold, hnew] using hx
  · rcases hplace x with ⟨hold, hnew⟩ | ⟨a, -, hold, hnew⟩
    · simp only [Maps, hold, Option.some.injEq, exists_eq_left']
      refine hadds.new x b ((hgrown x b).1 ?_)
      simpa only [Maps, hnew] using hx
    · refine .inl ?_
      simpa only [Maps, hold, hnew] using hx
  · have hself := (hgrown _ _).2 hadds.self
    simpa only [Maps, hfocus.locate_replace h'.sorted hkey] using hself

/-- Cutting an index node does not change the map. -/
theorem Ordered.maps_cut {ls rs : List (ExtentIdx × ExtTree d)} {y : ExtentIdx × ExtTree d} {b : ℕ}
    (h : @Ordered (d + 1) lo first hi (ls ++ y :: rs)) (hne : ls ≠ []) (x k : ℕ) :
    @Grown.Maps (d + 1) x k (.two ls ⟨y.1.eiBlock, b⟩ (y :: rs)) ↔
      @Maps x k (d + 1) (ls ++ y :: rs) := by
  have hle := (List.pairwise_append.1 h.sorted).2.2
  simp only [Grown.Maps, Maps, locate_append hne fun a ha ↦ hle a ha y (by simp), entryKey]
  split <;> rfl

/-- **An insertion adds the extent to the map**, but for what is mapped from another leaf already. -/
theorem Inserts.adds {t : ExtTree d} {fresh : List ℕ} {g : Grown (ExtTree d)}
    (h : Inserts ex t fresh g) (hpos : 0 < ex.eeLen) (hstop : ex.stop < 2 ^ 32)
    (ht : Ordered lo first hi t) (hlo : lo ≤ ex.eeBlock) (hhi : ex.eeBlock < hi)
    (hfree : ∀ b, ¬ t.Maps ex.eeBlock b) : Adds ex (fun x b ↦ t.Maps x b) fun x b ↦ g.Maps x b := by
  have hself : ex.Maps ex.eeBlock ex.eeStart := ⟨le_rfl, Nat.lt_add_of_pos_right hpos, by omega⟩
  -- what is mapped is followed through the cut: by the key of the right part
  induction h generalizing lo first hi with
  | @fits l r t hl hr hjoin =>
    refine ⟨fun x b hx ↦ ?_, fun x b hx ↦ ?_, (Joined.maps_iff hjoin).2 ⟨ex, by simp, hself⟩⟩
    · obtain ⟨e, he, hmaps⟩ := hx
      refine (Joined.maps_iff hjoin).2 ⟨e, ?_, hmaps⟩
      simp only [List.mem_append, List.mem_cons] at he ⊢
      tauto
    · obtain ⟨e, he, hmaps⟩ := (Joined.maps_iff hjoin).1 hx
      simp only [List.mem_append, List.mem_cons] at he
      rcases he with he | rfl | he
      · exact .inl ⟨e, List.mem_append_left _ he, hmaps⟩
      · exact .inr hmaps
      · exact .inl ⟨e, List.mem_append_right _ he, hmaps⟩
  | @append l b hne hl =>
    refine ⟨fun x k hx ↦ ?_, fun x k hx ↦ ?_, ?_⟩
    · obtain ⟨e, he, hmaps⟩ := hx
      have hend := stop_le_of_not_maps he (hl e he) hfree
      have hlt : x < ex.eeBlock := lt_of_lt_of_le hmaps.2.1 hend
      simp only [Grown.Maps, if_pos hlt]
      exact ⟨e, he, hmaps⟩
    · simp only [Grown.Maps] at hx
      split at hx
      · exact .inl hx
      · obtain ⟨e, he, hmaps⟩ := hx
        obtain rfl := List.mem_singleton.1 he
        exact .inr hmaps
    · simp only [Grown.Maps, lt_irrefl, if_false]
      exact ⟨ex, by simp, hself⟩
  | @cut l r e b hl he =>
    have hsorted := List.pairwise_append.1 (Leaf.sorted ht)
    have hcons := List.pairwise_cons.1 hsorted.2.1
    refine ⟨fun x k hx ↦ ?_, fun x k hx ↦ ?_, ?_⟩
    · obtain ⟨a, ha, hmaps⟩ := hx
      have hx₁ := hmaps.1
      have hx₂ := hmaps.2.1
      simp only [Grown.Maps]
      rcases List.mem_append.1 ha with ha | ha
      · have := hsorted.2.2 a ha e (by simp)
        rw [if_pos (by omega)]
        exact ⟨a, by simp [ha], hmaps⟩
      · have hle : e.eeBlock ≤ a.eeBlock := by
          rcases List.mem_cons.1 ha with rfl | ha
          · exact le_rfl
          · exact (Nat.le_add_right _ _).trans (hcons.1 a ha)
        rw [if_neg (by omega)]
        exact ⟨a, ha, hmaps⟩
    · simp only [Grown.Maps] at hx
      split at hx
      · obtain ⟨a, ha, hmaps⟩ := hx
        rcases List.mem_append.1 ha with ha | ha
        · exact .inl ⟨a, List.mem_append_left _ ha, hmaps⟩
        · obtain rfl := List.mem_singleton.1 ha
          exact .inr hmaps
      · obtain ⟨a, ha, hmaps⟩ := hx
        exact .inl ⟨a, List.mem_append_right _ ha, hmaps⟩
    · simp only [Grown.Maps, if_pos he]
      exact ⟨ex, by simp, hself⟩
  | @child d pre post c fresh g hfocus h hkey ih =>
    obtain ⟨hc, hlo', hhi'⟩ := ht.focus hfocus hlo hhi
    have hfree' : ∀ b, ¬ c.2.Maps ex.eeBlock b := fun b hb ↦ hfree b ((ht.maps_focus hfocus).2 hb)
    -- the child may be replaced in the context of its siblings
    have hfull := ht.replace hkey (h.ordered hpos hstop hc hlo' hhi' hfree')
    exact ht.adds_replace hfocus hfull (ih hc hlo' hhi' hfree')
  | @split d pre post ls rs c y fresh g b hfocus h hkey hcut hne ih =>
    obtain ⟨hc, hlo', hhi'⟩ := ht.focus hfocus hlo hhi
    have hfree' : ∀ b, ¬ c.2.Maps ex.eeBlock b := fun b hb ↦ hfree b ((ht.maps_focus hfocus).2 hb)
    have hfull := ht.replace hkey (h.ordered hpos hstop hc hlo' hhi' hfree')
    have hadds := ht.adds_replace hfocus hfull (ih hc hlo' hhi' hfree')
    rw [hcut] at hfull hadds
    exact ⟨fun x k hx ↦ (hfull.maps_cut hne x k).2 (hadds.old x k hx),
      fun x k hx ↦ hadds.new x k ((hfull.maps_cut hne x k).1 hx),
      (hfull.maps_cut hne _ _).2 hadds.self⟩

/-! ### The blocks -/

/-- The blocks of two lists of entries. -/
theorem blocks_append {ls rs : List (ExtentIdx × ExtTree d)} :
    @blocks (d + 1) (ls ++ rs) = @blocks (d + 1) ls ++ @blocks (d + 1) rs := List.flatMap_append

/-- The blocks of what a child grew to. -/
theorem blocks_entries (ix : ExtentIdx) (g : Grown (ExtTree d)) :
    (@blocks (d + 1) (g.entries ix)).Perm (g.blocks ++ [ix.eiLeaf]) := by
  cases g with
  | one t => simp [blocks, Grown.entries, Grown.blocks]
  | two left ix' right =>
    simp only [blocks, Grown.entries, Grown.blocks, List.flatMap_cons, List.flatMap_nil,
      List.append_nil, List.append_assoc]
    simp only [← Multiset.coe_eq_coe, ← Multiset.coe_add]
    abel

/-- The blocks of a tree after a child grew. -/
theorem blocks_replace {pre post : List (ExtentIdx × ExtTree d)} {c : ExtentIdx × ExtTree d}
    {g : Grown (ExtTree d)} {more : List ℕ} (h : g.blocks.Perm (c.2.blocks ++ more)) :
    (@blocks (d + 1) (pre ++ (g.entries c.1 ++ post))).Perm
      (@blocks (d + 1) (pre ++ c :: post) ++ more) := by
  have hc : @blocks (d + 1) (c :: post) = c.2.blocks ++ [c.1.eiLeaf] ++ @blocks (d + 1) post :=
    List.flatMap_cons
  have hentries := blocks_entries c.1 g
  simp only [← Multiset.coe_eq_coe, ← Multiset.coe_add, blocks_append, hc] at *
  rw [hentries, h]
  abel

/-- **The blocks of the tree become those of the extent and of the new nodes more.** -/
theorem Inserts.blocks_perm {t : ExtTree d} {fresh : List ℕ} {g : Grown (ExtTree d)}
    (h : Inserts ex t fresh g) : g.blocks.Perm (t.blocks ++ (ex.blocks ++ fresh)) := by
  have hleaf : ∀ l : List Extent, @blocks 0 l = l.flatMap Extent.blocks := fun _ ↦ rfl
  induction h with
  | @fits l r t hl hr hjoin =>
    simp only [Grown.blocks, hleaf, Joined.blocks hjoin, List.flatMap_append, List.flatMap_cons,
      ← Multiset.coe_eq_coe, ← Multiset.coe_add, List.append_nil]
    abel
  | @append l b hne hl =>
    simp only [Grown.blocks, hleaf, List.flatMap_cons, List.flatMap_nil, List.append_nil]
    exact .refl _
  | @cut l r e b hl he =>
    simp only [Grown.blocks, hleaf, List.flatMap_append, List.flatMap_cons, List.flatMap_nil,
      ← Multiset.coe_eq_coe, ← Multiset.coe_add, List.append_nil]
    abel
  | @child d pre post c fresh g hfocus h hkey ih => exact blocks_replace ih
  | @split d pre post ls rs c y fresh g b hfocus h hkey hcut hne ih =>
    have hfull := @blocks_replace d pre post c g _ ih
    rw [hcut, blocks_append] at hfull
    simp only [Grown.blocks, ← Multiset.coe_eq_coe, ← Multiset.coe_add] at *
    rw [← add_assoc, hfull]
    abel

end ExtTree

end MiniExt4
