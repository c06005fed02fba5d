import MiniExt4.Machine.CString
import Mathlib.Computability.Language

/-!
# Name patterns of `find` (`kernel/cmds.cpp`)

`match_glob` walks two strings in memory and calls itself: once a byte, and at a `'*'` once for every
place in the text where the rest of the pattern may start. The recursion is given fuel. The language of
a pattern is the product of the languages of its bytes, and the matcher decides it with as much fuel as
the two strings have bytes.

A pattern is not parsed. Its language is a product of one factor for each byte, all strings for a star, all
of length 1 for a question mark, and the byte itself otherwise, so the meaning of the matcher does not
mention its recursion. `Decides` says that the matcher answers for a pattern and a text, with enough fuel
and whatever stands behind their ends; `starLoop_decides` is the induction over the places where a star may
stop.
-/

namespace MiniExt4

namespace Glob

/-- `'*'` -/
def star : Byte := 42

/-- `'?'` -/
def quest : Byte := 63

/-- `'/'` -/
def slash : Byte := 47

/-- The loop of `match_glob` at a `'*'`: `rest` is the call with the rest of the pattern. -/
def starLoop (b : Buf) (rest : ℕ → Option Bool) : ℕ → ℕ → Option Bool
  | 0, _ => none
  | fuel + 1, text =>
    if b text = 0 then rest text
    else do
      if ← rest text then return true
      starLoop b rest fuel (text + 1)

/-- `match_glob(pat, text)`, on addresses. -/
def matchGlob (b : Buf) : ℕ → ℕ → ℕ → Option Bool
  | 0, _, _ => none
  | fuel + 1, pat, text =>
    if pat = 0 ∨ text = 0 then some false
    else if b pat = 0 then some (b text = 0)
    else if b pat = star then
      if b (pat + 1) = 0 then some true
      else starLoop b (matchGlob b fuel (pat + 1)) (fuel + 1) text
    else if b pat = quest then
      if b text = 0 then some false else matchGlob b fuel (pat + 1) (text + 1)
    else if b pat ≠ b text then some false
    else matchGlob b fuel (pat + 1) (text + 1)

/-- The loop of `path_basename`. -/
def basenameLoop (b : Buf) : ℕ → ℕ → ℕ → Option ℕ
  | 0, _, _ => none
  | fuel + 1, p, last =>
    if b p = 0 then some last
    else basenameLoop b fuel (p + 1) (if b p = slash then p + 1 else last)

/-- `path_basename(path)` -/
def pathBasename (b : Buf) (fuel path : ℕ) : Option ℕ :=
  if path = 0 ∨ b path = 0 then some path else basenameLoop b fuel path path

/-- `should_print_find_path(path, name_pat)` -/
def shouldPrintFindPath (b : Buf) (fuel path namePat : ℕ) : Option Bool :=
  if namePat = 0 ∨ b namePat = 0 then some true
  else do
    let name ← pathBasename b fuel path
    matchGlob b fuel namePat name

/-! ### The language of a pattern -/

/-- The texts of one byte. -/
def anyByte : Language Byte := {t | ∃ d, t = [d]}

/-- What one byte of a pattern stands for. -/
def symbol (c : Byte) : Language Byte :=
  if c = star then ⊤ else if c = quest then anyByte else {[c]}

/-- The texts a pattern stands for: one piece for each of its bytes. -/
def language (pat : List Byte) : Language Byte := (pat.map symbol).prod

variable {c : Byte} {pat t : List Byte}

theorem mem_language_nil : t ∈ language [] ↔ t = [] := Language.mem_one t

theorem mem_language_cons :
    t ∈ language (c :: pat) ↔ ∃ u ∈ symbol c, ∃ v ∈ language pat, u ++ v = t := by
  rw [language, List.map_cons, List.prod_cons]
  exact Language.mem_mul

/-- A star leaves some end of the text to the rest of the pattern. -/
theorem mem_language_star : t ∈ language (star :: pat) ↔ ∃ v, v <:+ t ∧ v ∈ language pat := by
  rw [mem_language_cons, symbol, if_pos rfl]
  constructor
  · rintro ⟨u, -, v, hv, rfl⟩
    exact ⟨v, List.suffix_append u v, hv⟩
  · rintro ⟨v, ⟨u, rfl⟩, hv⟩
    exact ⟨u, Set.mem_univ u, v, hv, rfl⟩

theorem mem_language_quest : t ∈ language (quest :: pat) ↔ ∃ d v, t = d :: v ∧ v ∈ language pat := by
  rw [mem_language_cons, symbol, if_neg (by decide), if_pos rfl]
  constructor
  · rintro ⟨u, ⟨d, rfl⟩, v, hv, rfl⟩
    exact ⟨d, v, rfl, hv⟩
  · rintro ⟨d, v, rfl, hv⟩
    exact ⟨[d], ⟨d, rfl⟩, v, hv, rfl⟩

theorem mem_language_byte (hstar : c ≠ star) (hquest : c ≠ quest) :
    t ∈ language (c :: pat) ↔ ∃ v, t = c :: v ∧ v ∈ language pat := by
  rw [mem_language_cons, symbol, if_neg hstar, if_neg hquest]
  constructor
  · rintro ⟨u, rfl, v, hv, rfl⟩
    exact ⟨v, rfl, hv⟩
  · rintro ⟨v, rfl, hv⟩
    exact ⟨[c], rfl, v, hv, rfl⟩

/-! ### The matcher decides the language -/

/-- A computation that ends, with the truth value of `P`. -/
def Decides (r : Option Bool) (P : Prop) : Prop := ∃ v, r = some v ∧ (v = true ↔ P)

theorem Decides.congr {r : Option Bool} {P Q : Prop} (h : Decides r P) (hPQ : P ↔ Q) : Decides r Q := by
  obtain ⟨v, hv, hP⟩ := h
  exact ⟨v, hv, hP.trans hPQ⟩

/-- The loop at a star finds the place, if there is one, where the rest of the pattern matches. -/
theorem starLoop_decides {b : Buf} {m : ℕ → Option Bool} {L : Language Byte} {text fuel : ℕ}
    (ht : b.IsString text t) (hfuel : t.length < fuel)
    (hm : ∀ v, v <:+ t → ∀ q, text ≤ q → b.IsString q v → Decides (m q) (v ∈ L)) :
    Decides (starLoop b m fuel text) (∃ v, v <:+ t ∧ v ∈ L) := by
  induction t generalizing text fuel with
  | nil =>
    obtain ⟨fuel, rfl⟩ := Nat.exists_eq_add_of_lt hfuel
    rw [List.length_nil, Nat.zero_add, starLoop, if_pos (ht.eq_zero_iff.2 rfl)]
    refine (hm [] List.suffix_rfl text le_rfl ht).congr ⟨fun h ↦ ⟨[], List.suffix_rfl, h⟩, ?_⟩
    rintro ⟨v, hv, h⟩
    rwa [List.suffix_nil.1 hv] at h
  | cons c t ih =>
    obtain ⟨fuel, rfl⟩ : ∃ n, fuel = n + 1 := ⟨fuel - 1, by omega⟩
    have hc : b text ≠ 0 := fun h ↦ List.cons_ne_nil c t (ht.eq_zero_iff.1 h)
    obtain ⟨v, hv, hhere⟩ := hm (c :: t) List.suffix_rfl text le_rfl ht
    have hlater := ih ht.2.2 (by simpa using hfuel) fun v hv q hq ↦
      hm v (hv.trans (List.suffix_cons c t)) q (by omega)
    rw [starLoop, if_neg hc, hv]
    cases v with
    | true => exact ⟨true, rfl, by simpa using ⟨c :: t, List.suffix_rfl, hhere.1 rfl⟩⟩
    | false =>
      refine hlater.congr ⟨fun ⟨v, hv, h⟩ ↦ ⟨v, hv.trans (List.suffix_cons c t), h⟩, ?_⟩
      rintro ⟨v, hv, h⟩
      rcases List.suffix_cons_iff.1 hv with rfl | hv
      · exact absurd (hhere.2 h) (by simp)
      · exact ⟨v, hv, h⟩

/-- With more fuel than the two strings have bytes, the matcher ends and decides whether the text is in
the language of the pattern. -/
theorem matchGlob_decides {b : Buf} {fuel p q : ℕ} (hp : b.IsString p pat) (ht : b.IsString q t)
    (hp0 : p ≠ 0) (hq0 : q ≠ 0) (hfuel : pat.length + t.length < fuel) :
    Decides (matchGlob b fuel p q) (t ∈ language pat) := by
  induction pat generalizing p q t fuel with
  | nil =>
    obtain ⟨fuel, rfl⟩ : ∃ n, fuel = n + 1 := ⟨fuel - 1, by omega⟩
    rw [matchGlob, if_neg (by omega), if_pos (hp.eq_zero_iff.2 rfl)]
    refine ⟨_, rfl, ?_⟩
    rw [mem_language_nil, decide_eq_true_iff]
    exact ht.eq_zero_iff
  | cons c pat ih =>
    obtain ⟨fuel, rfl⟩ : ∃ n, fuel = n + 1 := ⟨fuel - 1, by omega⟩
    obtain ⟨rfl, hc, hpat⟩ := hp
    rw [List.length_cons] at hfuel
    have hnext : ∀ v q, b.IsString q v → q ≠ 0 → v.length ≤ t.length →
        Decides (matchGlob b fuel (p + 1) q) (v ∈ language pat) := fun v q hv hq hlen ↦
      ih hpat hv (Nat.succ_ne_zero p) hq (by omega)
    rw [matchGlob, if_neg (by omega), if_neg hc]
    split
    next hstar =>
      rw [hstar]
      split
      next hlast =>
        -- a trailing star takes the whole text
        obtain rfl := hpat.eq_zero_iff.1 hlast
        refine ⟨true, rfl, iff_of_true rfl (mem_language_star.2 ⟨[], List.nil_suffix, ?_⟩)⟩
        exact mem_language_nil.2 rfl
      next =>
        refine (starLoop_decides ht (by omega) fun v hv r hr hvr ↦ ?_).congr mem_language_star.symm
        exact hnext v r hvr (by omega) hv.length_le
    next hstar =>
      split
      next hquest =>
        rw [hquest]
        split
        next hend =>
          obtain rfl := ht.eq_zero_iff.1 hend
          refine ⟨false, rfl, iff_of_false (by simp) fun h ↦ ?_⟩
          obtain ⟨d, v, hdv, -⟩ := mem_language_quest.1 h
          cases hdv
        next hmore =>
          obtain ⟨v, rfl, hv⟩ := ht.exists_cons hmore
          refine (hnext v _ hv (Nat.succ_ne_zero q) (Nat.le_succ _)).congr ?_
          refine mem_language_quest.trans ⟨?_, fun h ↦ ⟨_, v, rfl, h⟩⟩ |>.symm
          rintro ⟨d, w, hdw, h⟩
          cases hdw
          exact h
      next hquest =>
        have hlang := @mem_language_byte (b p) pat t hstar hquest
        split
        next hdiff =>
          refine ⟨false, rfl, iff_of_false (by simp) fun h ↦ ?_⟩
          obtain ⟨v, rfl, -⟩ := hlang.1 h
          exact hdiff ht.1.symm
        next hsame =>
          have heq := not_not.1 hsame
          obtain ⟨v, rfl, hv⟩ := ht.exists_cons (by rwa [← heq])
          refine (hnext v _ hv (Nat.succ_ne_zero q) (Nat.le_succ _)).congr (hlang.trans ?_).symm
          rw [heq]
          simp

/-! ### The last component of a path -/

/-- The bytes after the last slash. -/
def basename (s : List Byte) : List Byte := s.rtakeWhile (· ≠ slash)

theorem basename_append_slash (u s : List Byte) : basename (u ++ slash :: s) = basename s := by
  rw [basename, basename, List.rtakeWhile, List.rtakeWhile, List.reverse_append, List.reverse_cons,
    List.append_assoc, List.takeWhile_append]
  split
  next hall =>
    have hself := (List.takeWhile_prefix fun c : Byte ↦ decide (c ≠ slash)).eq_of_length hall
    rw [hself]
    simp
  next => rfl

theorem basename_of_notMem {u : List Byte} (h : slash ∉ u) : basename u = u := by
  refine List.rtakeWhile_eq_self_iff.2 fun c hc ↦ ?_
  rw [decide_eq_true_iff]
  rintro rfl
  exact h hc

/-- The loop keeps `last` at the start of the component that `p` is in: `u` is what it has seen of it. -/
theorem basenameLoop_spec {b : Buf} {fuel p last : ℕ} {u s : List Byte} (hs : b.IsString p s)
    (hlast : b.IsString last (u ++ s)) (hu : slash ∉ u) (hpos : 0 < last) (hfuel : s.length < fuel) :
    ∃ q, basenameLoop b fuel p last = some q ∧ 0 < q ∧ b.IsString q (basename (u ++ s)) := by
  induction s generalizing p last u fuel with
  | nil =>
    obtain ⟨fuel, rfl⟩ : ∃ n, fuel = n + 1 := ⟨fuel - 1, by omega⟩
    rw [List.append_nil] at hlast ⊢
    rw [basenameLoop, if_pos (hs.eq_zero_iff.2 rfl), basename_of_notMem hu]
    exact ⟨last, rfl, hpos, hlast⟩
  | cons c s ih =>
    obtain ⟨fuel, rfl⟩ : ∃ n, fuel = n + 1 := ⟨fuel - 1, by omega⟩
    have hfuel' : s.length < fuel := by simpa using hfuel
    obtain ⟨rfl, hc, hrest⟩ := hs
    rw [basenameLoop, if_neg hc]
    split
    next hslash =>
      rw [hslash, basename_append_slash]
      have hnew := @ih fuel (p + 1) (p + 1) [] hrest hrest (by simp) (Nat.succ_pos p) hfuel'
      simpa using hnew
    next hslash =>
      have hmem : slash ∉ u ++ [b p] := by
        simpa [hu] using fun h : slash = b p ↦ hslash h.symm
      have hnew := ih hrest (by simpa using hlast) hmem hpos hfuel'
      simpa using hnew

/-- `path_basename` returns the address of the last component. -/
theorem pathBasename_spec {b : Buf} {fuel path : ℕ} {s : List Byte} (hs : b.IsString path s)
    (hpath : path ≠ 0) (hfuel : s.length < fuel) :
    ∃ q, pathBasename b fuel path = some q ∧ q ≠ 0 ∧ b.IsString q (basename s) := by
  rw [pathBasename]
  split
  next hempty =>
    obtain rfl := hs.eq_zero_iff.1 (hempty.resolve_left hpath)
    exact ⟨path, rfl, hpath, hs⟩
  next =>
    obtain ⟨q, hq, hpos, hstr⟩ := @basenameLoop_spec b fuel path path [] s hs (by simpa using hs)
      (by simp) (Nat.pos_of_ne_zero hpath) hfuel
    exact ⟨q, hq, hpos.ne', by simpa using hstr⟩

/-- A path is printed exactly when no pattern is given or its last component is in the language of the
pattern. -/
theorem shouldPrintFindPath_decides {b : Buf} {fuel path p : ℕ} {s : List Byte} (hs : b.IsString path s)
    (hp : b.IsString p pat) (hpath : path ≠ 0) (hp0 : p ≠ 0) (hfuel : pat.length + s.length < fuel) :
    Decides (shouldPrintFindPath b fuel path p) (pat = [] ∨ basename s ∈ language pat) := by
  rw [shouldPrintFindPath]
  split
  next hempty =>
    have hnil := hp.eq_zero_iff.1 (hempty.resolve_left hp0)
    exact ⟨true, rfl, iff_of_true rfl (Or.inl hnil)⟩
  next hsome =>
    have hne : pat ≠ [] := fun h ↦ hsome (Or.inr (hp.eq_zero_iff.2 h))
    obtain ⟨q, hq, hq0, hstr⟩ := @pathBasename_spec b fuel path s hs hpath (by omega)
    have hlen : (basename s).length ≤ s.length := (List.rtakeWhile_suffix _ s).length_le
    rw [hq]
    exact (matchGlob_decides hp hstr hp0 hq0 (by omega)).congr (or_iff_right hne).symm

/-! ### Main result -/

/-- A text matches exactly when it belongs to the language of the pattern, and the matcher says so
after finitely many calls. -/
theorem matchGlob_eq_true_iff {b : Buf} {p q : ℕ} (hp : b.IsString p pat) (ht : b.IsString q t)
    (hp0 : p ≠ 0) (hq0 : q ≠ 0) :
    ∃ v, (∀ fuel, pat.length + t.length < fuel → matchGlob b fuel p q = some v) ∧
      (v = true ↔ t ∈ language pat) := by
  classical
  refine ⟨decide (t ∈ language pat), fun fuel hfuel ↦ ?_, decide_eq_true_iff⟩
  obtain ⟨v, hv, hiff⟩ := matchGlob_decides hp ht hp0 hq0 hfuel
  rw [hv, Option.some_inj, Bool.eq_iff_iff, hiff, decide_eq_true_iff]

/-- `"*?c"` at address 1 and `"abc"` at address 5. -/
def abc : Buf := fun i ↦ [0, 42, 63, 99, 0, 97, 98, 99].getD i 0

theorem matchGlob_eq_true_iff_abc :
    ∃ v, (∀ fuel, 6 < fuel → matchGlob abc fuel 1 5 = some v) ∧
      (v = true ↔ ([97, 98, 99] : List Byte) ∈ language [42, 63, 99]) := by
  have hp : abc.IsString 1 [42, 63, 99] := ⟨rfl, by decide, rfl, by decide, rfl, by decide, rfl⟩
  have ht : abc.IsString 5 [97, 98, 99] := ⟨rfl, by decide, rfl, by decide, rfl, by decide, rfl⟩
  exact matchGlob_eq_true_iff hp ht (by decide) (by decide)

example : matchGlob abc 7 1 5 = some true := by decide

end Glob

end MiniExt4
