import MiniExt4.Drivers.Keyboard

/-!
# Keys and the shell (`drivers/input/keyboard.cpp`, `kernel/shell.cpp`)

The interrupt handler enters a character for a key and sets `line_ready` at Enter. The shell polls: it
takes the flag, clears it and executes one line. The flag is one bit and the buffer may hold any number
of lines, so a poll that finds two of them forgets the second until the next Enter.

The terminal is the driver with what the user has typed beside it. `Terminal.Inv` says that the ring holds
the lines that were typed and not yet executed, in their order, and that the flag is set if there is one.
The second part is what a poll loses where two lines wait, and the first what the ring loses where it is
full or a step goes over its end: `Terminal.Careful` excludes these, and nothing else.
-/

namespace MiniExt4

namespace Shell

open Keyboard

/-- The static variables of `HandleInterrupt`. -/
structure Keys where
  shift : Bool
  capsLock : Bool
  ctrl : Bool
  alt : Bool

/-- The state of `KeyboardDriver`. -/
structure Driver where
  kb : KbBuffer
  lineReady : Byte
  keys : Keys

/-- The keys of the letters. -/
def letters : List (ℕ × Char) :=
  [(0x10, 'q'), (0x11, 'w'), (0x12, 'e'), (0x13, 'r'), (0x14, 't'), (0x15, 'y'), (0x16, 'u'),
    (0x17, 'i'), (0x18, 'o'), (0x19, 'p'), (0x1E, 'a'), (0x1F, 's'), (0x20, 'd'), (0x21, 'f'),
    (0x22, 'g'), (0x23, 'h'), (0x24, 'j'), (0x25, 'k'), (0x26, 'l'), (0x2C, 'z'), (0x2D, 'x'),
    (0x2E, 'c'), (0x2F, 'v'), (0x30, 'b'), (0x31, 'n'), (0x32, 'm')]

/-- The other keys of characters, without and with Shift. -/
def symbols : List (ℕ × Char × Char) :=
  [(0x02, '1', '!'), (0x03, '2', '@'), (0x04, '3', '#'), (0x05, '4', '$'), (0x06, '5', '%'),
    (0x07, '6', '^'), (0x08, '7', '&'), (0x09, '8', '*'), (0x0A, '9', '('), (0x0B, '0', ')'),
    (0x0C, '-', '_'), (0x0D, '=', '+'), (0x1A, '[', '\x7b'), (0x1B, ']', '\x7d'), (0x2B, '\\', '|'),
    (0x27, ';', ':'), (0x28, '\'', '"'), (0x33, ',', '<'), (0x34, '.', '>'), (0x35, '/', '?'),
    (0x29, '\x60', '~'), (0x37, '*', '*'), (0x4E, '+', '+'), (0x4A, '-', '-'), (0x39, ' ', ' ')]

/-- The byte of an ASCII character. -/
def ascii (c : Char) : Byte := BitVec.ofNat 8 c.toNat

/-- The character that a key enters, if it is the key of one. -/
def charOf (shift capsLock : Bool) (key : Byte) : Option Byte :=
  match letters.lookup key.toNat with
  | some c => some (ascii (if shift || capsLock then c.toUpper else c))
  | none => (symbols.lookup key.toNat).map fun c ↦ ascii (if shift then c.2 else c.1)

/-- `PrintfKeyboardEventHandler::OnKeyDown(c)` -/
def Driver.onKeyDown (d : Driver) (c : Byte) : Driver := { d with kb := d.kb.putBuffer c }

/-- `KeyboardDriver::HandleInterrupt(esp)`, where the port gives `key`. -/
def Driver.handleInterrupt (d : Driver) (key : Byte) : Driver :=
  match charOf d.keys.shift d.keys.capsLock key with
  | some c => d.onKeyDown c
  | none =>
    if key = 0x1C then { d.onKeyDown newline with lineReady := 1 }
    else if key = 0x2A ∨ key = 0x36 then { d with keys := { d.keys with shift := true } }
    else if key = 0xAA ∨ key = 0xB6 then { d with keys := { d.keys with shift := false } }
    else if key = 0x3A then { d with keys := { d.keys with capsLock := !d.keys.capsLock } }
    else if key = 0x1D then { d with keys := { d.keys with ctrl := true } }
    else if key = 0x9D then { d with keys := { d.keys with ctrl := false } }
    else if key = 0x38 then { d with keys := { d.keys with alt := true } }
    else if key = 0xB8 then { d with keys := { d.keys with alt := false } }
    else if key = 0x0E then if 0 < d.kb.count.toNat then d.onKeyDown backspace else d
    else d

/-- `KeyboardDriver::consume_line_ready()` -/
def Driver.consumeLineReady (d : Driver) : Bool × Driver := (d.lineReady ≠ 0, { d with lineReady := 0 })

/-- `simpleShell(pKeyDriver)` up to the command: the line it executes, if it executes one. -/
def simpleShell (d : Driver) : Option Buf × Driver :=
  let (ready, d) := d.consumeLineReady
  if ready = false then (none, d)
  else
    let (cmd, kb) := d.kb.getBuffer Buf.zero
    (some cmd, { d with kb })

/-! ### Runs -/

/-- What was typed: the lines whose Enter was pressed, in that order, and the line being typed. -/
structure Typing where
  entered : List (List Byte)
  line : List Byte

/-- A character is typed. Into a full buffer goes none. -/
def Typing.press (t : Typing) (full : Bool) (c : Byte) : Typing :=
  if c = newline then ⟨t.entered ++ [t.line], []⟩
  else if c = backspace then { t with line := t.line.dropLast }
  else if full then t
  else { t with line := t.line ++ [c] }

/-- The character that a key sends to the buffer. -/
def Driver.sends (d : Driver) (key : Byte) : Option Byte :=
  match charOf d.keys.shift d.keys.capsLock key with
  | some c => some c
  | none =>
    if key = 0x1C then some newline
    else if key = 0x0E ∧ 0 < d.kb.count.toNat then some backspace
    else none

/-- The driver, the lines that were executed and what was typed. -/
structure Terminal where
  driver : Driver
  executed : List Buf
  typing : Typing

/-- Nothing was typed. -/
def Terminal.init : Terminal := ⟨⟨.init, 0, ⟨false, false, false, false⟩⟩, [], ⟨[], []⟩⟩

/-- One step of the machine. -/
inductive Event where
  | interrupt (key : Byte)
  | poll

/-- What a step does. -/
def Terminal.step (s : Terminal) : Event → Terminal
  | .interrupt key =>
    { s with
      driver := s.driver.handleInterrupt key
      typing := match s.driver.sends key with
        | some c => s.typing.press (s.driver.kb.count = 255) c
        | none => s.typing }
  | .poll =>
    { s with
      driver := (simpleShell s.driver).2
      executed := s.executed ++ (simpleShell s.driver).1.toList }

/-- The characters in the ring. -/
def buffered (kb : KbBuffer) : List Byte :=
  (List.range kb.count.toNat).map fun k ↦ kb.buf ((kb.head.toNat + k) % 255)

/-- Every line that was entered was executed once, in order, or waits in the buffer; and while one waits
the flag is set. -/
structure Terminal.Remembers (s : Terminal) : Prop where
  ready : newline ∈ buffered s.driver.kb → s.driver.lineReady = 1
  executed : List.Forall₂ IsString s.executed (s.typing.entered.take s.executed.length)
  waiting : s.typing.entered.length = s.executed.length + (buffered s.driver.kb).count newline

/-- Enter finds room, Backspace removes no Enter and not the character before cell 0, and a poll that
finds the flag set finds no second line behind the first, nor a line that goes on in cell 0. -/
def Terminal.Careful (s : Terminal) : Event → Prop
  | .interrupt key =>
    (key = 0x1C → s.driver.kb.count ≠ 255) ∧
      (key = 0x0E → s.driver.kb.count = 0 ∨
        s.driver.kb.tail ≠ 0 ∧ s.driver.kb.buf (s.driver.kb.tail - 1).toNat ≠ newline)
  | .poll =>
    s.driver.lineReady ≠ 0 → (buffered s.driver.kb).count newline ≤ 1 ∧
      s.driver.kb.head.toNat + (firstLine (buffered s.driver.kb)).length < 255

/-! ### What a key does -/

/-- The tables have no Enter and no Backspace. -/
theorem letters_ne : ∀ p ∈ letters, p.1 ≠ 0x1C ∧ p.1 ≠ 0x0E ∧ ∀ upper : Bool,
    ascii (if upper then p.2.toUpper else p.2) ≠ newline ∧
      ascii (if upper then p.2.toUpper else p.2) ≠ backspace := by
  decide +kernel

theorem symbols_ne : ∀ p ∈ symbols, p.1 ≠ 0x1C ∧ p.1 ≠ 0x0E ∧ ∀ shift : Bool,
    ascii (if shift then p.2.2 else p.2.1) ≠ newline ∧
      ascii (if shift then p.2.2 else p.2.1) ≠ backspace := by
  decide +kernel

theorem mem_of_lookup {β : Type} {n : ℕ} {v : β} {l : List (ℕ × β)} (h : l.lookup n = some v) :
    (n, v) ∈ l := by
  obtain ⟨l₁, l₂, rfl, -⟩ := List.lookup_eq_some_iff.1 h
  simp

theorem charOf_ne {shift capsLock : Bool} {key c : Byte} (h : charOf shift capsLock key = some c) :
    c ≠ newline ∧ c ≠ backspace ∧ key ≠ 0x1C ∧ key ≠ 0x0E := by
  have hkey : ∀ k : Byte, key.toNat ≠ k.toNat → key ≠ k := fun k hne heq ↦ hne (congrArg _ heq)
  rw [charOf] at h
  split at h
  next c' hlookup =>
    obtain ⟨henter, hback, hchar⟩ := letters_ne _ (mem_of_lookup hlookup)
    obtain rfl := Option.some.inj h
    exact ⟨(hchar _).1, (hchar _).2, hkey 0x1C henter, hkey 0x0E hback⟩
  next =>
    obtain ⟨c', hlookup, rfl⟩ := Option.map_eq_some_iff.1 h
    obtain ⟨henter, hback, hchar⟩ := symbols_ne _ (mem_of_lookup hlookup)
    exact ⟨(hchar _).1, (hchar _).2, hkey 0x1C henter, hkey 0x0E hback⟩

variable {d : Driver} {key c : Byte}

theorem handleInterrupt_of_sends_none (h : d.sends key = none) :
    (d.handleInterrupt key).kb = d.kb ∧ (d.handleInterrupt key).lineReady = d.lineReady := by
  rw [Driver.sends] at h
  rw [Driver.handleInterrupt]
  split at h
  next => cases h
  next hchar =>
    split at h
    next => cases h
    next hne =>
    split at h
    next => cases h
    next hback =>
      simp only [if_neg hne]
      repeat' split
      all_goals first
        | exact ⟨rfl, rfl⟩
        | exact absurd ⟨by assumption, by assumption⟩ hback

theorem handleInterrupt_of_sends (h : d.sends key = some c) :
    (d.handleInterrupt key).kb = d.kb.putBuffer c ∧
      (d.handleInterrupt key).lineReady = (if c = newline then 1 else d.lineReady) ∧
      (c = newline → key = 0x1C) ∧ (c = backspace → key = 0x0E ∧ 0 < d.kb.count.toNat) := by
  rw [Driver.sends] at h
  rw [Driver.handleInterrupt]
  split at h
  next c' hchar =>
    obtain rfl := Option.some.inj h
    obtain ⟨hnl, hbs, -, -⟩ := charOf_ne hchar
    simp only [if_neg hnl]
    exact ⟨rfl, rfl, fun hc ↦ absurd hc hnl, fun hc ↦ absurd hc hbs⟩
  next hchar =>
    split at h
    next hkey =>
      obtain rfl := Option.some.inj h
      subst hkey
      exact ⟨rfl, rfl, fun _ ↦ rfl, fun hc ↦ absurd hc (by decide)⟩
    next hne =>
    split at h
    next hback =>
      obtain rfl := Option.some.inj h
      obtain ⟨rfl, hpos⟩ := hback
      change (if 0 < d.kb.count.toNat then d.onKeyDown backspace else d).kb = _ ∧
        (if 0 < d.kb.count.toNat then d.onKeyDown backspace else d).lineReady = d.lineReady ∧ _
      rw [if_pos hpos]
      exact ⟨rfl, rfl, fun hc ↦ absurd hc (by decide), fun _ ↦ ⟨rfl, hpos⟩⟩
    next => cases h

/-! ### What the ring holds -/

theorem buffered_eq {kb : KbBuffer} {q : List Byte} (h : Held kb q) : buffered kb = q := by
  refine List.ext_getElem (by simp [buffered, h.count]) fun k _ hk ↦ ?_
  simp [buffered, h.cells.2 k hk]

/-- A full ring takes no character. -/
theorem putBuffer_full {kb : KbBuffer} (hfull : kb.count = 255) (hc : c ≠ backspace) :
    kb.putBuffer c = kb := by
  rw [KbBuffer.putBuffer, if_neg hc, hfull, if_neg (by decide)]

/-- The last character is the one before `tail`. -/
theorem Held.last {kb : KbBuffer} {q : List Byte} {a : Byte} (h : Held kb (q ++ [a]))
    (htail : kb.tail ≠ 0) : kb.buf (kb.tail - 1).toNat = a := by
  have hlen := h.length_le
  have hcell := h.cells.2 q.length (by simp)
  have htail' := h.tail
  rw [List.length_append, List.length_singleton] at hlen htail'
  have hprev : (kb.tail - 1).toNat = (kb.head.toNat + q.length) % 255 := by bv_omega
  rw [hprev, hcell]
  simp

/-- The lines that wait, each with its Enter, and the line being typed. -/
def text (pending : List (List Byte)) (line : List Byte) : List Byte :=
  (pending.map (· ++ [newline])).flatten ++ line

theorem count_newline_text {pending : List (List Byte)} {line : List Byte}
    (hpending : ∀ l ∈ pending, newline ∉ l) (hline : newline ∉ line) :
    (text pending line).count newline = pending.length := by
  induction pending with
  | nil => exact List.count_eq_zero_of_not_mem hline
  | cons l pending ih =>
    rw [List.forall_mem_cons] at hpending
    have hrest := ih hpending.2
    rw [text, List.count_append] at hrest
    rw [text, List.map_cons, List.flatten_cons, List.count_append, List.count_append, List.count_append,
      List.count_eq_zero_of_not_mem hpending.1, List.count_singleton_self, List.length_cons]
    omega

/-- What holds between the steps of a careful run: `lines` were executed and `pending` wait. -/
structure Terminal.Inv (s : Terminal) (lines pending : List (List Byte)) : Prop where
  entered : s.typing.entered = lines ++ pending
  executed : List.Forall₂ IsString s.executed lines
  held : Held s.driver.kb (text pending s.typing.line)
  single : ∀ l ∈ pending, newline ∉ l
  line : newline ∉ s.typing.line
  ready : s.driver.lineReady = if pending = [] then 0 else 1

variable {s : Terminal} {lines pending : List (List Byte)}

theorem Terminal.inv_init : Terminal.init.Inv [] [] :=
  ⟨rfl, .nil, ⟨by decide, by decide, rfl, rfl, .nil⟩, by simp, by simp [Terminal.init], rfl⟩

theorem Terminal.Inv.remembers (h : s.Inv lines pending) : s.Remembers := by
  have hbuffered := buffered_eq h.held
  have hcount := count_newline_text h.single h.line
  have hlen := h.executed.length_eq
  refine ⟨fun hmem ↦ ?_, ?_, ?_⟩
  · rw [hbuffered] at hmem
    have hpos := List.count_pos_iff.2 hmem
    rw [h.ready, if_neg]
    rintro rfl
    rw [hcount] at hpos
    exact absurd hpos (Nat.lt_irrefl 0)
  · rw [h.entered, hlen, List.take_left']
    · exact h.executed
    · rfl
  · rw [hbuffered, hcount, h.entered, List.length_append, hlen]

/-- Enter. -/
theorem Terminal.Inv.enter (h : s.Inv lines pending) (hroom : s.driver.kb.count ≠ 255) {d : Driver}
    (hkb : d.kb = s.driver.kb.putBuffer newline) (hready : d.lineReady = 1) :
    Terminal.Inv ⟨d, s.executed, s.typing.press (s.driver.kb.count = 255) newline⟩ lines
      (pending ++ [s.typing.line]) := by
  have hcount := h.held.count
  have hlen := h.held.length_le
  have hput := h.held.put (c := newline) (by decide) (by bv_omega)
  have htext : text (pending ++ [s.typing.line]) [] = text pending s.typing.line ++ [newline] := by
    simp [text]
  rw [Typing.press, if_pos rfl]
  refine ⟨?_, h.executed, ?_, ?_, by simp, ?_⟩
  · rw [h.entered, List.append_assoc]
  · change Held d.kb (text (pending ++ [s.typing.line]) [])
    rw [htext, hkb]
    exact hput
  · rw [List.forall_mem_append, List.forall_mem_singleton]
    exact ⟨h.single, h.line⟩
  · rw [if_neg (by simp)]
    exact hready

/-- Backspace, within the line being typed. -/
theorem Terminal.Inv.back (h : s.Inv lines pending) (hpos : 0 < s.driver.kb.count.toNat)
    (htail : s.driver.kb.tail ≠ 0) (hlast : s.driver.kb.buf (s.driver.kb.tail - 1).toNat ≠ newline)
    {d : Driver} (hkb : d.kb = s.driver.kb.putBuffer backspace) (hready : d.lineReady = s.driver.lineReady) :
    Terminal.Inv ⟨d, s.executed, s.typing.press (s.driver.kb.count = 255) backspace⟩ lines pending := by
  have hheld := h.held
  have hback := hheld.backspace fun hbad ↦ htail hbad.2
  -- with an empty line the last character would be the Enter of the last line that waits
  have hline : s.typing.line ≠ [] := by
    intro hnil
    rw [hnil] at hheld
    rcases List.eq_nil_or_concat pending with rfl | ⟨rest, l, rfl⟩
    · have hzero := hheld.count
      simp only [text, List.map_nil, List.flatten_nil, List.append_nil, List.length_nil] at hzero
      omega
    · have htext : text (rest ++ [l]) [] = text rest l ++ [newline] := by simp [text]
      rw [List.concat_eq_append, htext] at hheld
      exact hlast (Held.last hheld htail)
  rw [Typing.press, if_neg (by decide), if_pos rfl]
  refine ⟨h.entered, h.executed, ?_, h.single, fun hmem ↦ h.line (List.dropLast_subset _ hmem),
    hready.trans h.ready⟩
  rw [text, List.dropLast_append_of_ne_nil hline, ← text, ← hkb] at hback
  exact hback

/-- Any other character. -/
theorem Terminal.Inv.type (h : s.Inv lines pending) (hnl : c ≠ newline) (hbs : c ≠ backspace)
    {d : Driver} (hkb : d.kb = s.driver.kb.putBuffer c) (hready : d.lineReady = s.driver.lineReady) :
    Terminal.Inv ⟨d, s.executed, s.typing.press (s.driver.kb.count = 255) c⟩ lines pending := by
  rw [Typing.press, if_neg hnl, if_neg hbs]
  split
  next hfull =>
    rw [putBuffer_full (of_decide_eq_true hfull) hbs] at hkb
    exact ⟨h.entered, h.executed, hkb ▸ h.held, h.single, h.line, hready.trans h.ready⟩
  next hroom =>
    have hcount := h.held.count
    have hlen := h.held.length_le
    have hroom' : s.driver.kb.count ≠ 255 := fun hc ↦ hroom (decide_eq_true hc)
    have hput := h.held.put hbs (by bv_omega)
    rw [text, List.append_assoc, ← text, ← hkb] at hput
    refine ⟨h.entered, h.executed, hput, h.single, ?_, hready.trans h.ready⟩
    rw [List.mem_append, List.mem_singleton, not_or]
    exact ⟨h.line, hnl.symm⟩

/-- A poll. -/
theorem Terminal.Inv.poll (h : s.Inv lines pending) (hcareful : s.Careful .poll) :
    ∃ lines pending, (s.step .poll).Inv lines pending := by
  have hready := h.ready
  rcases pending with - | ⟨l, pending⟩
  · rw [if_pos rfl] at hready
    have hpoll : simpleShell s.driver = (none, { s.driver with lineReady := 0 }) := by
      simp [simpleShell, Driver.consumeLineReady, hready]
    refine ⟨lines, [], ?_⟩
    rw [Terminal.step, hpoll]
    refine ⟨h.entered, ?_, h.held, h.single, h.line, rfl⟩
    simpa using h.executed
  · rw [if_neg (List.cons_ne_nil l pending)] at hready
    obtain ⟨hone, hinside⟩ := hcareful (by rw [hready]; decide)
    rw [buffered_eq h.held] at hone hinside
    rw [count_newline_text h.single h.line, List.length_cons] at hone
    obtain rfl : pending = [] := List.eq_nil_of_length_eq_zero (by omega)
    have hl := h.single l List.mem_cons_self
    have hheld := h.held
    have htext : text [l] s.typing.line = l ++ newline :: s.typing.line := by simp [text]
    have hfirst : firstLine (l ++ newline :: s.typing.line) = l := by
      rw [firstLine, List.takeWhile_append_of_pos fun a ha ↦ ?_]
      · simp
      · rw [decide_eq_true_iff]
        rintro rfl
        exact hl ha
    rw [htext] at hheld hinside
    rw [hfirst] at hinside
    obtain ⟨hrest, hstring⟩ := hheld.get hl hinside Buf.zero
    have hpoll : simpleShell s.driver = (some (s.driver.kb.getBuffer Buf.zero).1,
        ⟨(s.driver.kb.getBuffer Buf.zero).2, 0, s.driver.keys⟩) := by
      simp [simpleShell, Driver.consumeLineReady, hready]
    refine ⟨lines ++ [l], [], ?_⟩
    rw [Terminal.step, hpoll]
    refine ⟨?_, List.rel_append h.executed (.cons hstring .nil), hrest, by simp, h.line, rfl⟩
    rw [h.entered, List.append_nil]

/-- One careful step. -/
theorem Terminal.Inv.step {e : Event} (h : s.Inv lines pending) (hcareful : s.Careful e) :
    ∃ lines pending, (s.step e).Inv lines pending := by
  cases e with
  | poll => exact h.poll hcareful
  | interrupt key =>
    obtain ⟨henter, hback⟩ := hcareful
    rw [Terminal.step]
    cases hsends : s.driver.sends key with
    | none =>
      obtain ⟨hkb, hready⟩ := handleInterrupt_of_sends_none hsends
      exact ⟨lines, pending, h.entered, h.executed, hkb ▸ h.held, h.single, h.line, hready.trans h.ready⟩
    | some c =>
      obtain ⟨hkb, hready, hnl, hbs⟩ := handleInterrupt_of_sends hsends
      rcases eq_or_ne c newline with rfl | hc
      · rw [if_pos rfl] at hready
        exact ⟨lines, _, h.enter (henter (hnl rfl)) hkb hready⟩
      rw [if_neg hc] at hready
      rcases eq_or_ne c backspace with rfl | hc'
      · obtain ⟨hkey, hpos⟩ := hbs rfl
        have hne : s.driver.kb.count ≠ 0 := fun hzero ↦ by
          rw [hzero] at hpos
          exact absurd hpos (by decide)
        obtain ⟨htail, hlast⟩ := (hback hkey).resolve_left hne
        exact ⟨lines, pending, h.back hpos htail hlast hkb hready⟩
      · exact ⟨lines, pending, h.type hc hc' hkb hready⟩

/-! ### Main result -/

/-- In every run of careful steps no completed line is forgotten, in no state on the way. -/
theorem remembers_of_careful (events : List Event)
    (hcareful : Calls.Along Terminal.step Terminal.Careful events .init) :
    ∀ l, l <+: events → (l.foldl Terminal.step .init).Remembers := by
  rintro l ⟨rest, rfl⟩
  obtain ⟨lines, pending, hinv⟩ : ∃ lines pending, (l.foldl Terminal.step .init).Inv lines pending :=
    Calls.inv_of_along (I := fun s ↦ ∃ lines pending, Terminal.Inv s lines pending)
      (fun _ _ ⟨_, _, h⟩ hc ↦ h.step hc) ⟨[], [], Terminal.inv_init⟩ hcareful.of_append
  exact hinv.remembers

instance (s : Terminal) : (e : Event) → Decidable (s.Careful e)
  | .interrupt key => inferInstanceAs (Decidable ((key = 0x1C → s.driver.kb.count ≠ 255) ∧
      (key = 0x0E → s.driver.kb.count = 0 ∨
        s.driver.kb.tail ≠ 0 ∧ s.driver.kb.buf (s.driver.kb.tail - 1).toNat ≠ newline)))
  | .poll => inferInstanceAs (Decidable (s.driver.lineReady ≠ 0 →
      (buffered s.driver.kb).count newline ≤ 1 ∧
        s.driver.kb.head.toNat + (firstLine (buffered s.driver.kb)).length < 255))

/-- The keys `L`, Enter, a poll, `S`, Backspace, `D`, Enter and a poll. -/
theorem remembers_of_careful_ld :
    ([Event.interrupt 0x26, .interrupt 0x1C, .poll, .interrupt 0x1F, .interrupt 0x0E,
      .interrupt 0x20, .interrupt 0x1C, .poll].foldl Terminal.step .init).Remembers :=
  remembers_of_careful _ (by decide +kernel) _ (List.prefix_refl _)

/-- Two lines are typed between two polls: after the first poll the second line waits and the flag is
clear. -/
theorem not_remembers_two :
    ¬([Event.interrupt 0x1E, .interrupt 0x1C, .interrupt 0x30, .interrupt 0x1C, .poll].foldl
      Terminal.step .init).Remembers := by
  intro h
  exact absurd (h.ready (by decide +kernel)) (by decide +kernel)

end Shell

end MiniExt4
