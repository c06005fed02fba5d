import MiniExt4.Machine.Bytes
import MiniExt4.Machine.Ring

/-!
# The line buffer of the keyboard (`drivers/input/keyboard.cpp`)

The characters that were typed wait in a ring of 255 cells of an array of 256, with 8-bit counters.
What the ring stands for is a queue of characters: a key enters one, Backspace removes the last one and
`get_buffer` takes the characters up to the first Enter. The ring is that queue until one of two steps
over its end: Backspace where `tail` is 0, and a line that goes on in cell 0.

`Held` ties the array and the two counters to the queue. It is kept by a call as long as nothing steps over
the end of the array (`Session.Inside`); entering and removing a character are exact under it, and
`get_buffer` is the one call that needs an induction, over the characters of the line.
-/

namespace MiniExt4

namespace Keyboard

/-- `'\b'` -/
def backspace : Byte := 8

/-- `'\n'` -/
def newline : Byte := 10

/-- `struct KB_BUFFER` -/
structure KbBuffer where
  head : BitVec 8
  tail : BitVec 8
  count : BitVec 8
  buf : Buf

/-- `kb_buffer` as it is initialised. -/
def KbBuffer.init : KbBuffer := ⟨0, 0, 0, Buf.zero⟩

/-- `KeyboardDriver::put_buffer(c)` -/
def KbBuffer.putBuffer (kb : KbBuffer) (c : Byte) : KbBuffer :=
  if c = backspace then
    if kb.count = 0 then kb
    else
      let kb := { kb with count := kb.count - 1, tail := kb.tail - 1 }
      -- an `uint8_t` is compared as the `int` of its value
      if (kb.tail.toNat : ℤ) = -1 then { kb with tail := 254 } else kb
  else if kb.count.toNat < 255 then
    let kb :=
      { kb with
        count := kb.count + 1
        buf := Function.update kb.buf kb.tail.toNat c
        tail := kb.tail + 1 }
    if kb.tail = 255 then { kb with tail := 0 } else kb
  else kb

/-- The variables of `get_buffer`: the ring, the destination, `i` and `c`. -/
structure GetState where
  kb : KbBuffer
  buffer : Buf
  i : ℕ
  c : Byte

/-- The loop of `get_buffer`. Each iteration takes one off `count`, which bounds the iterations. -/
def getLoop : ℕ → GetState → GetState
  | 0, s => s
  | fuel + 1, s =>
    if 0 < s.kb.count.toNat ∧ s.c ≠ newline then
      let head := s.kb.head + 1
      let c := s.kb.buf head.toNat
      -- the cell is read before `head` wraps
      getLoop fuel
        { kb := { s.kb with head := if head = 255 then 0 else head, count := s.kb.count - 1 }
          buffer := Function.update s.buffer (s.i + 1) c
          i := s.i + 1
          c := c }
    else s

/-- `KeyboardDriver::get_buffer(buffer)`: what it leaves in `buffer`, and the ring. -/
def KbBuffer.getBuffer (kb : KbBuffer) (buffer : Buf) : Buf × KbBuffer :=
  let c := kb.buf kb.head.toNat
  let s := getLoop kb.count.toNat ⟨kb, Function.update buffer 0 c, 0, c⟩
  let head := s.kb.head + 1
  (Function.update s.buffer s.i 0,
    { s.kb with head := if head = 255 then 0 else head, count := s.kb.count - 1 })

/-! ### The queue -/

/-- The text as it was typed, after editing, the lines of it that were taken, and what is buffered. -/
structure LineQueue where
  typed : List Byte
  taken : List (List Byte)
  buffered : List Byte

/-- One call on the driver. -/
inductive Call where
  | put (c : Byte)
  | get (buffer : Buf)

/-- The line at the front of a queue. -/
def firstLine (q : List Byte) : List Byte := q.takeWhile (· ≠ newline)

/-- What a call does to the queue. -/
def LineQueue.call (q : LineQueue) : Call → LineQueue
  | .put c =>
    if c = backspace then
      if q.buffered = [] then q
      else { q with typed := q.typed.dropLast, buffered := q.buffered.dropLast }
    else { q with typed := q.typed ++ [c], buffered := q.buffered ++ [c] }
  | .get _ =>
    { q with
      taken := q.taken ++ [firstLine q.buffered]
      buffered := q.buffered.drop ((firstLine q.buffered).length + 1) }

/-- The driver, the strings it returned, and the queue it stands for. -/
structure Session where
  kb : KbBuffer
  strings : List Buf
  queue : LineQueue

/-- Nothing was typed. -/
def Session.init : Session := ⟨.init, [], ⟨[], [], []⟩⟩

/-- What a call does to both. -/
def Session.call (s : Session) (call : Call) : Session :=
  match call with
  | .put c => ⟨s.kb.putBuffer c, s.strings, s.queue.call (.put c)⟩
  | .get buffer =>
    ⟨(s.kb.getBuffer buffer).2, s.strings ++ [(s.kb.getBuffer buffer).1], s.queue.call (.get buffer)⟩

/-- At most 254 characters are buffered at a time, and a line is read when there is one. -/
def Session.Admits (s : Session) : Call → Prop
  | .put c => c = backspace ∨ s.queue.buffered.length < 254
  | .get _ => newline ∈ s.queue.buffered

/-- The call does not step over the end of the ring the wrong way: no character is removed while
`tail` is 0, and the line that is read ends, with its Enter, before cell 255. -/
def Session.Inside (s : Session) : Call → Prop
  | .put c => ¬ (c = backspace ∧ s.kb.count ≠ 0 ∧ s.kb.tail = 0)
  | .get _ => s.kb.head.toNat + (firstLine s.queue.buffered).length < 255

/-- The string `l` with its terminator. -/
def IsString (buffer : Buf) (l : List Byte) : Prop :=
  (∀ k (h : k < l.length), buffer k = l[k]) ∧ buffer l.length = 0

/-- The driver is a faithful line queue: it counts the buffered characters, and the strings it returned
are the lines of the text that was typed, in order, up to what is buffered. -/
structure Session.Faithful (s : Session) : Prop where
  count : s.kb.count.toNat = s.queue.buffered.length
  strings : List.Forall₂ IsString s.strings s.queue.taken
  typed : s.queue.typed = (s.queue.taken.map (· ++ [newline])).flatten ++ s.queue.buffered
  lines : ∀ l ∈ s.queue.taken, newline ∉ l

/-! ### One call -/

/-- The ring holds the queue. -/
structure Held (kb : KbBuffer) (q : List Byte) : Prop where
  head_lt : kb.head.toNat < 255
  length_le : q.length ≤ 255
  count : kb.count.toNat = q.length
  tail : kb.tail.toNat = (kb.head.toNat + q.length) % 255
  cells : Ring.Holds 255 kb.buf kb.head.toNat q

variable {kb : KbBuffer} {q l rest : List Byte} {c : Byte}

theorem Held.put (h : Held kb q) (hc : c ≠ backspace) (hroom : q.length < 255) :
    Held (kb.putBuffer c) (q ++ [c]) := by
  have hcount := h.count
  have htail := h.tail
  have hhead := h.head_lt
  have hcells := h.cells.push (by omega) c
  rw [← htail] at hcells
  unfold KbBuffer.putBuffer
  rw [if_neg hc, if_pos (by omega)]
  dsimp only
  have hmod : (kb.head.toNat + q.length) % 255 < 255 := Nat.mod_lt _ (by norm_num)
  have hnext : (kb.head.toNat + (q.length + 1)) % 255 =
      if kb.tail + 1 = 255 then 0 else kb.tail.toNat + 1 := by
    split <;> bv_omega
  by_cases hwrap : kb.tail + 1 = 255
  · rw [if_pos hwrap] at hnext ⊢
    refine ⟨hhead, by simpa using hroom, ?_, ?_, hcells⟩
    · rw [List.length_append, List.length_singleton]
      show (kb.count + 1).toNat = _
      bv_omega
    · rw [List.length_append, List.length_singleton, hnext]
      rfl
  · rw [if_neg hwrap] at hnext ⊢
    refine ⟨hhead, by simpa using hroom, ?_, ?_, hcells⟩
    · rw [List.length_append, List.length_singleton]
      show (kb.count + 1).toNat = _
      bv_omega
    · rw [List.length_append, List.length_singleton, hnext]
      show (kb.tail + 1).toNat = _
      bv_omega

theorem Held.backspace (h : Held kb q) (htail : ¬ (kb.count ≠ 0 ∧ kb.tail = 0)) :
    Held (kb.putBuffer Keyboard.backspace) q.dropLast := by
  have hcount := h.count
  have hlen := h.length_le
  have htail' := h.tail
  unfold KbBuffer.putBuffer
  rw [if_pos rfl]
  by_cases hzero : kb.count = 0
  · have hnil : q = [] := by
      apply List.eq_nil_of_length_eq_zero
      rw [← hcount, hzero]
      rfl
    rw [if_pos hzero]
    subst hnil
    exact h
  · rw [if_neg hzero]
    have hpos : 0 < q.length := by bv_omega
    have htail₀ : kb.tail ≠ 0 := fun heq ↦ htail ⟨hzero, heq⟩
    have hhead := h.head_lt
    dsimp only
    rw [if_neg (by omega)]
    refine ⟨hhead, ?_, ?_, ?_, h.cells.dropLast⟩
    · rw [List.length_dropLast]
      omega
    · rw [List.length_dropLast]
      show (kb.count - 1).toNat = _
      bv_omega
    · rw [List.length_dropLast]
      show (kb.tail - 1).toNat = _
      bv_omega

/-- The loop over a line that does not reach the end of the ring. -/
theorem getLoop_line : ∀ (l : List Byte) (fuel : ℕ) (s : GetState), newline ∉ l →
    s.kb.head.toNat + l.length < 255 → l.length < s.kb.count.toNat → l.length ≤ fuel →
    (∀ k (h : k < (l ++ [newline]).length),
      s.kb.buf (s.kb.head.toNat + k) = (l ++ [newline])[k]) →
    s.c = s.kb.buf s.kb.head.toNat →
    ∃ s', getLoop fuel s = s' ∧ s'.kb.head.toNat = s.kb.head.toNat + l.length ∧
      s'.kb.count.toNat = s.kb.count.toNat - l.length ∧ s'.kb.tail = s.kb.tail ∧
      s'.kb.buf = s.kb.buf ∧ s'.i = s.i + l.length ∧
      (∀ k ≤ s.i, s'.buffer k = s.buffer k) ∧
      ∀ k, 0 < k → k ≤ l.length → s'.buffer (s.i + k) = s.kb.buf (s.kb.head.toNat + k) := by
  intro l
  -- an iteration copies one character of the line and moves the head, until it is at Enter
  induction l with
  | nil =>
    intro fuel s _ _ _ _ hcells hc
    have hnl : s.c = newline := hc.trans (hcells 0 (by simp))
    refine ⟨s, ?_, rfl, rfl, rfl, rfl, rfl, fun _ _ ↦ rfl, fun k hk hk' ↦ ?_⟩
    · cases fuel with
      | zero => rfl
      | succ fuel => rw [getLoop, if_neg fun h ↦ h.2 hnl]
    · rw [List.length_nil] at hk'
      omega
  | cons a l ih =>
    intro fuel s hline hhead hcount hfuel hcells hc
    rw [List.length_cons] at hhead hcount hfuel
    obtain ⟨fuel, rfl⟩ := Nat.exists_eq_add_one.2 (Nat.lt_of_lt_of_le (Nat.succ_pos _) hfuel)
    have ha : s.c ≠ newline := by
      rw [hc, show s.kb.buf s.kb.head.toNat = a from hcells 0 (by simp)]
      exact fun heq ↦ hline (heq ▸ List.mem_cons_self)
    -- nothing wraps: the line ends before the last cell
    have hnext : (s.kb.head + 1).toNat = s.kb.head.toNat + 1 := by bv_omega
    have hne : s.kb.head + 1 ≠ 255 := by bv_omega
    have hdec : (s.kb.count - 1).toNat = s.kb.count.toNat - 1 := by bv_omega
    rw [getLoop, if_pos ⟨by omega, ha⟩]
    simp only [if_neg hne]
    set s₁ : GetState :=
      { kb := { s.kb with head := s.kb.head + 1, count := s.kb.count - 1 }
        buffer := Function.update s.buffer (s.i + 1) (s.kb.buf (s.kb.head + 1).toNat)
        i := s.i + 1
        c := s.kb.buf (s.kb.head + 1).toNat } with hs₁
    obtain ⟨s', hloop, hhead', hcount', htail', hbuf', hi', hbelow, habove⟩ := ih fuel s₁
      (fun hmem ↦ hline (List.mem_cons_of_mem _ hmem)) (by rw [show s₁.kb.head.toNat = _ from hnext]; omega)
      (by rw [show s₁.kb.count.toNat = _ from hdec]; omega) (by omega)
      (fun k hk ↦ by
        have hcell := hcells (k + 1) (by simpa using hk)
        rw [show s₁.kb.head.toNat = _ from hnext, show s₁.kb.buf = s.kb.buf from rfl, Nat.add_assoc,
          Nat.add_comm 1 k, hcell]
        rfl) rfl
    refine ⟨s', hloop, ?_, ?_, htail', hbuf', ?_, fun k hk ↦ ?_, fun k hk hk' ↦ ?_⟩
    · rw [hhead', show s₁.kb.head.toNat = _ from hnext, List.length_cons]
      omega
    · rw [hcount', show s₁.kb.count.toNat = _ from hdec, List.length_cons]
      omega
    · rw [hi', List.length_cons]
      show s.i + 1 + l.length = _
      omega
    · rw [hbelow k (show k ≤ s.i + 1 by omega)]
      exact Function.update_of_ne (by omega) _ _
    · rw [List.length_cons] at hk'
      by_cases hone : k = 1
      · subst hone
        rw [hbelow (s.i + 1) (show s.i + 1 ≤ s.i + 1 from le_rfl), ← hnext]
        exact Function.update_self _ _ _
      · have hrest := habove (k - 1) (by omega) (by omega)
        rw [show s₁.i = s.i + 1 from rfl, show s₁.kb.head.toNat = _ from hnext] at hrest
        rw [show s.i + k = s.i + 1 + (k - 1) by omega, hrest,
          show s.kb.head.toNat + 1 + (k - 1) = s.kb.head.toNat + k by omega]

theorem Held.get (h : Held kb (l ++ newline :: rest)) (hline : newline ∉ l)
    (hinside : kb.head.toNat + l.length < 255) (buffer : Buf) :
    Held (kb.getBuffer buffer).2 rest ∧ IsString (kb.getBuffer buffer).1 l := by
  have hcount := h.count
  have hlen := h.length_le
  have htail := h.tail
  rw [List.length_append, List.length_cons] at hcount hlen htail
  have hcell : ∀ k (hk : k < (l ++ [newline]).length),
      kb.buf (kb.head.toNat + k) = (l ++ [newline])[k] := by
    intro k hk
    rw [List.length_append, List.length_singleton] at hk
    rw [h.cells.apply (by rw [List.length_append, List.length_cons]; omega) (by omega)]
    simp only [show l ++ newline :: rest = (l ++ [newline]) ++ rest by simp]
    rw [List.getElem_append_left]
  -- the first character is stored before the loop
  obtain ⟨s, hloop, hhead', hcount', htail', hbuf', hi', hbelow, habove⟩ := getLoop_line l
    kb.count.toNat ⟨kb, Function.update buffer 0 (kb.buf kb.head.toNat), 0, kb.buf kb.head.toNat⟩
    hline hinside (by dsimp only; omega) (by omega) hcell rfl
  dsimp only at hhead' hcount' htail' hbuf' hi' hbelow habove
  unfold KbBuffer.getBuffer
  simp only [hloop]
  have hhead : (if s.kb.head + 1 = 255 then 0 else s.kb.head + 1).toNat =
      (kb.head.toNat + (l.length + 1)) % 255 := by
    split <;> bv_omega
  refine ⟨⟨?_, by omega, ?_, ?_, ?_⟩, fun k hk ↦ ?_, ?_⟩
  · rw [hhead]
    exact Nat.mod_lt _ (by norm_num)
  · show (s.kb.count - 1).toNat = _
    bv_omega
  · show s.kb.tail.toNat = _
    rw [htail', htail, hhead]
    omega
  · rw [hhead, hbuf']
    have hcells := h.cells
    rw [show l ++ newline :: rest = (l ++ [newline]) ++ rest by simp] at hcells
    simpa using hcells.of_append
  · rw [Function.update_of_ne (by omega)]
    have hline' : kb.buf (kb.head.toNat + k) = l[k] := by
      rw [hcell k (by rw [List.length_append]; omega), List.getElem_append_left hk]
    rcases Nat.eq_zero_or_pos k with rfl | hpos
    · rw [hbelow 0 le_rfl, Function.update_self]
      exact hline'
    · have := habove k hpos (by omega)
      rw [Nat.zero_add] at this
      rw [this, hline']
  · rw [hi', Nat.zero_add, Function.update_self]

/-! ### Runs -/

theorem newline_notMem_firstLine (q : List Byte) : newline ∉ firstLine q := fun hmem ↦ by
  simpa using List.mem_takeWhile_imp hmem

/-- A queue with an Enter in it is its first line, the Enter and the rest. -/
theorem exists_eq_firstLine_append (h : newline ∈ q) :
    q = firstLine q ++ newline :: q.drop ((firstLine q).length + 1) := by
  induction q with
  | nil => simp at h
  | cons a q ih =>
    by_cases ha : a = newline
    · subst ha
      simp [firstLine]
    · have hmem : newline ∈ q := (List.mem_cons.1 h).resolve_left (Ne.symm ha)
      have hfirst : firstLine (a :: q) = a :: firstLine q := by simp [firstLine, ha]
      rw [hfirst, List.cons_append, List.length_cons, List.drop_succ_cons, ← ih hmem]

/-- What holds between the calls of a run that stays inside the ring. -/
structure Session.Inv (s : Session) : Prop extends s.Faithful where
  held : Held s.kb s.queue.buffered

theorem Session.inv_init : Session.init.Inv :=
  ⟨⟨rfl, .nil, rfl, by simp [Session.init]⟩, ⟨by decide, by decide, rfl, rfl, .nil⟩⟩

theorem Session.Inv.call {s : Session} {call : Call} (h : s.Inv) (hadmits : s.Admits call)
    (hinside : s.Inside call) : (s.call call).Inv := by
  cases call with
  | put c =>
    by_cases hc : c = Keyboard.backspace
    · subst hc
      -- Backspace takes the last character away, if there is one
      have hheld := h.held.backspace fun hbad ↦ hinside ⟨rfl, hbad⟩
      by_cases hnil : s.queue.buffered = []
      · have hqueue : s.queue.call (.put Keyboard.backspace) = s.queue := by
          rw [LineQueue.call, if_pos rfl, if_pos hnil]
        rw [hnil] at hheld
        refine ⟨⟨?_, ?_, ?_, ?_⟩, ?_⟩ <;> simp only [Session.call, hqueue]
        · rw [hheld.count, hnil]
          rfl
        · exact h.strings
        · exact h.typed
        · exact h.lines
        · rw [hnil]
          exact hheld
      · have hqueue : s.queue.call (.put Keyboard.backspace) =
            { s.queue with
              typed := s.queue.typed.dropLast, buffered := s.queue.buffered.dropLast } := by
          rw [LineQueue.call, if_pos rfl, if_neg hnil]
        refine ⟨⟨?_, ?_, ?_, ?_⟩, ?_⟩ <;> simp only [Session.call, hqueue]
        · exact hheld.count
        · exact h.strings
        · rw [h.typed, List.dropLast_append_of_ne_nil hnil]
        · exact h.lines
        · exact hheld
    · have hheld := h.held.put hc ((hadmits.resolve_left hc).trans (by decide))
      have hqueue : s.queue.call (.put c) =
          { s.queue with typed := s.queue.typed ++ [c], buffered := s.queue.buffered ++ [c] } := by
        rw [LineQueue.call, if_neg hc]
      refine ⟨⟨?_, ?_, ?_, ?_⟩, ?_⟩ <;> simp only [Session.call, hqueue]
      · exact hheld.count
      · exact h.strings
      · rw [h.typed, List.append_assoc]
      · exact h.lines
      · exact hheld
  | get buffer =>
    -- the first line and its Enter leave the queue
    have hsplit := exists_eq_firstLine_append hadmits
    have hnl := newline_notMem_firstLine s.queue.buffered
    have hheld := h.held
    rw [hsplit] at hheld
    obtain ⟨hheld', hstring⟩ := hheld.get hnl hinside buffer
    refine ⟨⟨hheld'.count, ?_, ?_, ?_⟩, hheld'⟩
    · exact List.rel_append h.strings (.cons hstring .nil)
    · show s.queue.typed = _
      rw [h.typed]
      simp only [Session.call, LineQueue.call, List.map_append, List.map_cons, List.map_nil,
        List.flatten_append, List.flatten_cons, List.flatten_nil, List.append_nil,
        List.append_assoc, List.singleton_append]
      rw [← hsplit]
    · intro l hl
      rcases List.mem_append.1 hl with hl | hl
      · exact h.lines l hl
      · rw [List.mem_singleton.1 hl]
        exact hnl

/-- **The ring is a faithful line queue in every run that stays inside it.** -/
theorem faithful_of_inside (calls : List Call)
    (hadmits : Calls.Along Session.call Session.Admits calls .init)
    (hinside : Calls.Along Session.call Session.Inside calls .init) :
    (calls.foldl Session.call .init).Faithful := by
  have hboth : Calls.Along Session.call (fun s call ↦ s.Admits call ∧ s.Inside call) calls .init :=
    hadmits.and hinside
  exact (Calls.inv_of_along (fun _ _ h hcall ↦ h.call hcall.1 hcall.2) Session.inv_init
    hboth).toFaithful

instance (s : Session) : (call : Call) → Decidable (s.Admits call)
  | .put c => inferInstanceAs (Decidable (c = backspace ∨ s.queue.buffered.length < 254))
  | .get _ => inferInstanceAs (Decidable (newline ∈ s.queue.buffered))

instance (s : Session) : (call : Call) → Decidable (s.Inside call)
  | .put c => inferInstanceAs (Decidable (¬ (c = backspace ∧ s.kb.count ≠ 0 ∧ s.kb.tail = 0)))
  | .get _ =>
    inferInstanceAs (Decidable (s.kb.head.toNat + (firstLine s.queue.buffered).length < 255))

/-- The keys `ls`, Backspace, `s`, Enter. -/
theorem faithful_of_inside_ls :
    (List.foldl Session.call .init
      [.put 108, .put 115, .put backspace, .put 115, .put newline, .get Buf.zero]).Faithful :=
  faithful_of_inside _ (by decide) (by decide)

/-- A line of 253 characters is typed and read, then a line of one character. -/
def wrappingCalls : List Call :=
  List.replicate 253 (.put 97) ++ [.put newline, .get Buf.zero, .put 98, .put newline, .get Buf.zero]

/-- The Enter of the second line is in cell 0, and the reader looks for it in cell 255. -/
theorem not_faithful_wrapping : Calls.Along Session.call Session.Admits wrappingCalls .init ∧
    ¬ (wrappingCalls.foldl Session.call .init).Faithful := by
  refine ⟨by decide +kernel, fun h ↦ ?_⟩
  have hcount : (wrappingCalls.foldl Session.call .init).kb.count.toNat = 255 := by decide +kernel
  have hlength : (wrappingCalls.foldl Session.call .init).queue.buffered.length = 0 := by
    decide +kernel
  have := h.count
  omega

end Keyboard

end MiniExt4
