import MiniExt4.Machine.Ring

/-!
# The scheduler (`kernel/sched/multitasking.cpp`)

`TaskManager::Schedule` saves the state of the task that was running and returns that of the next one,
round robin. The counters are 8-bit and unsigned: "no current task" is 255, and the test that it is not
negative always passes, so that the first call with a task saves the state through `tasks[255]`. From
then on the scheduler is what it should be.

What is asked of the scheduler is asked of every sequence of registrations and calls of `Schedule`: stores
inside the array, the state that was saved for a task returned to it, and turns in order (`Correct`).
`Chained` says how each call goes on from the one before it, and the order of the turns is read off it. The
first call that finds a task touches index 255, so that the sequences which are right are those without such
a call (`System.Idle`).
-/

namespace MiniExt4

namespace Multitasking

variable {τ κ : Type}

/-- `class TaskManager`, and the field `cpustate` of every `Task`. `τ` are the addresses of tasks, `κ`
those of saved states. -/
structure TaskManager (τ κ : Type) where
  tasks : ℕ → τ
  numTasks : BitVec 8
  currentTask : BitVec 8
  cpustate : τ → κ

/-- `TaskManager::TaskManager()`. The array is not initialised. -/
def TaskManager.new (tasks : ℕ → τ) (cpustate : τ → κ) : TaskManager τ κ := ⟨tasks, 0, -1, cpustate⟩

/-- `TaskManager::AddTask(task)` -/
def TaskManager.addTask (m : TaskManager τ κ) (task : τ) : Bool × TaskManager τ κ :=
  if m.numTasks.toNat ≥ 255 then (false, m)
  else
    (true, { m with
      tasks := Function.update m.tasks m.numTasks.toNat task, numTasks := m.numTasks + 1 })

/-- What `Schedule` returns, the indices of `tasks` it touches, and the manager it leaves. -/
structure Scheduled (τ κ : Type) where
  returned : κ
  touched : List ℕ
  manager : TaskManager τ κ

/-- `TaskManager::Schedule(cpustate)` -/
def TaskManager.schedule [DecidableEq τ] (m : TaskManager τ κ) (cpustate : κ) : Scheduled τ κ :=
  if m.numTasks.toNat ≤ 0 then ⟨cpustate, [], m⟩
  else
    -- an `uint8_t` is compared as the `int` of its value
    let saves := decide ((m.currentTask.toNat : ℤ) ≥ 0)
    let touched := if saves then [m.currentTask.toNat] else []
    let m :=
      if saves then
        { m with cpustate := Function.update m.cpustate (m.tasks m.currentTask.toNat) cpustate }
      else m
    let m := { m with currentTask := m.currentTask + 1 }
    let m := if m.currentTask.toNat ≥ m.numTasks.toNat then { m with currentTask := 0 } else m
    ⟨m.cpustate (m.tasks m.currentTask.toNat), touched ++ [m.currentTask.toNat], m⟩

/-- The index that is dispatched after `i` of `n`. -/
def nextTask (n i : ℕ) : ℕ := if i + 1 ≥ n then 0 else i + 1

/-- The next task is one of the tasks. -/
theorem nextTask_lt {n : ℕ} (hn : 0 < n) (i : ℕ) : nextTask n i < n := by
  unfold nextTask
  split <;> omega

/-- A call with a task saves the state at `currentTask`, whatever that is, and goes on to the next. -/
theorem TaskManager.schedule_eq [DecidableEq τ] (m : TaskManager τ κ) (c : κ) (h : 0 < m.numTasks.toNat) :
    let cur := m.currentTask.toNat
    let next := nextTask m.numTasks.toNat cur
    let saved := Function.update m.cpustate (m.tasks cur) c
    m.schedule c = ⟨saved (m.tasks next), [cur, next],
      { m with currentTask := BitVec.ofNat 8 next, cpustate := saved }⟩ := by
  intro cur next saved
  have hsaves : decide ((m.currentTask.toNat : ℤ) ≥ 0) = true := by simp
  have hlt : next < 256 := lt_trans (nextTask_lt h cur) (BitVec.isLt _)
  have hcur : (if (m.currentTask + 1).toNat ≥ m.numTasks.toNat then 0 else m.currentTask + 1) =
      BitVec.ofNat 8 next := by
    simp only [next, nextTask, cur]
    split <;> split <;> bv_omega
  have hnext : (BitVec.ofNat 8 next).toNat = next := Nat.mod_eq_of_lt hlt
  unfold schedule
  rw [if_neg (by omega)]
  simp only [hsaves, if_true]
  by_cases hwrap : (m.currentTask + 1).toNat ≥ m.numTasks.toNat
  · rw [if_pos hwrap] at hcur
    simp only [if_pos hwrap, hcur, hnext]
    rfl
  · rw [if_neg hwrap] at hcur
    rw [hcur, hnext] at hwrap
    simp only [hcur, hnext, if_neg hwrap]
    rfl

/-! ### What a sequence of calls shows -/

/-- What one call of `Schedule` shows: the number of tasks then, the pointer passed, the indices
touched, the task dispatched, if any, and the pointer returned. -/
structure Event (κ : Type) where
  registered : ℕ
  passed : κ
  touched : List ℕ
  dispatched : Option ℕ
  returned : κ

/-- A call on the task manager. -/
inductive Call (τ κ : Type) where
  | addTask (task : τ)
  | schedule (cpustate : κ)

/-- The manager and the calls of `Schedule` so far, the newest first. -/
structure System (τ κ : Type) where
  manager : TaskManager τ κ
  history : List (Event κ)

/-- One call. -/
def System.call [DecidableEq τ] (s : System τ κ) : Call τ κ → System τ κ
  | .addTask task => { s with manager := (s.manager.addTask task).2 }
  | .schedule c =>
    let r := s.manager.schedule c
    { manager := r.manager
      history :=
        { registered := s.manager.numTasks.toNat
          passed := c
          touched := r.touched
          dispatched := r.touched.getLast?
          returned := r.returned } :: s.history }

/-- Nothing was called. -/
def System.new (tasks : ℕ → τ) (cpustate : τ → κ) : System τ κ := ⟨.new tasks cpustate, []⟩

/-- The pointer passed to the first call after task `i` was last dispatched, where `c` is passed to the
call that is being made; `p` if it never was. -/
def expected (p c : κ) : List (Event κ) → ℕ → κ
  | [], _ => p
  | e :: history, i => if e.dispatched = some i then c else expected p e.passed history i

/-- Every index touched is that of a task. -/
def Event.InBounds (e : Event κ) : Prop := ∀ i ∈ e.touched, i < e.registered

/-- The pointer returned is the one that was saved for the task, or its first. -/
def Event.ReturnsSaved (initial : ℕ → κ) (e : Event κ) (history : List (Event κ)) : Prop :=
  ∀ i, e.dispatched = some i → e.returned = expected (initial i) e.passed history i

/-- Since the task was last dispatched, if no task was added, every other one was exactly once. -/
def Event.RoundRobin (e : Event κ) (history : List (Event κ)) : Prop :=
  ∀ between e₀ before i, history = between ++ e₀ :: before → e.dispatched = some i →
    e₀.dispatched = some i → (∀ b ∈ between, b.dispatched ≠ some i) → e₀.registered = e.registered →
    ∀ j < e.registered, j ≠ i → (between.map Event.dispatched).count (some j) = 1

/-- All three, of every call. -/
def Correct (initial : ℕ → κ) (history : List (Event κ)) : Prop :=
  ∀ after e before, history = after ++ e :: before →
    e.InBounds ∧ e.ReturnsSaved initial before ∧ e.RoundRobin before

/-! ### Round robin -/

/-- `currentTask` after an earlier call. -/
def currentOf : Option (Event κ) → ℕ
  | some e => e.dispatched.getD 255
  | none => 255

/-- Each call with a task touched the index dispatched before it and the next one, which it
dispatched. -/
def Chained : List (Event κ) → Prop
  | [] => True
  | e :: history =>
    let next := nextTask e.registered (currentOf history.head?)
    Chained history ∧ (∀ e₀ ∈ history, e₀.registered ≤ e.registered) ∧ e.registered ≤ 255 ∧
      e.touched = (if e.registered = 0 then [] else [currentOf history.head?, next]) ∧
      e.dispatched = if e.registered = 0 then none else some next

/-- Going on from one task to the next goes round. -/
theorem nextTask_mod {n i k : ℕ} (hn : 0 < n) : nextTask n ((i + k) % n) = (i + (k + 1)) % n := by
  have hlt := Nat.mod_lt (i + k) hn
  have hsucc : (i + (k + 1)) % n = ((i + k) % n + 1) % n := by
    rw [Nat.mod_add_mod, Nat.add_assoc]
  rw [hsucc, nextTask]
  generalize (i + k) % n = r at hlt
  split
  · rw [show r + 1 = n by omega, Nat.mod_self]
  · rw [Nat.mod_eq_of_lt (by omega)]

/-- While no task is added the calls go through the tasks one by one. -/
theorem Chained.dispatched_eq {n i : ℕ} {e₀ : Event κ} {before : List (Event κ)}
    (hreg : e₀.registered = n) (hdisp : e₀.dispatched = some i) (hi : i < n) :
    ∀ between, Chained (between ++ e₀ :: before) → (∀ b ∈ between, b.registered = n) →
      between.map Event.dispatched =
        ((List.range between.length).map fun k ↦ some ((i + (k + 1)) % n)).reverse ∧
      nextTask n (currentOf (between ++ e₀ :: before).head?) = (i + (between.length + 1)) % n := by
  have hn : 0 < n := by omega
  intro between
  induction between with
  | nil =>
    intro _ _
    refine ⟨rfl, ?_⟩
    simp only [List.nil_append, List.head?_cons, currentOf, hdisp, Option.getD_some]
    rw [List.length_nil, ← nextTask_mod hn, Nat.add_zero, Nat.mod_eq_of_lt hi]
  | cons b between ih =>
    intro hchained hall
    obtain ⟨hrest, -, -, -, hb⟩ := hchained
    obtain ⟨hmap, hnext⟩ := ih hrest fun b hb ↦ hall b (List.mem_cons_of_mem _ hb)
    rw [hall b List.mem_cons_self, if_neg hn.ne'] at hb
    replace hb : b.dispatched = some ((i + (between.length + 1)) % n) := hnext ▸ hb
    refine ⟨?_, ?_⟩
    · rw [List.map_cons, hb, hmap, List.length_cons, List.range_succ, List.map_append,
        List.reverse_append]
      rfl
    · simp only [List.cons_append, List.head?_cons, currentOf, hb, Option.getD_some,
        List.length_cons]
      exact nextTask_mod hn

/-- An earlier part of a history is one. -/
theorem Chained.of_append {l₁ l₂ : List (Event κ)} (h : Chained (l₁ ++ l₂)) : Chained l₂ := by
  induction l₁ with
  | nil => exact h
  | cons _ _ ih => exact ih h.1

/-- The `n - 1` indices after `i` are the others, each once. -/
theorem count_others {n i j : ℕ} (hi : i < n) (hj : j < n) (hne : j ≠ i) :
    (((List.range (n - 1)).map fun k ↦ some ((i + (k + 1)) % n)).reverse).count (some j) = 1 := by
  rw [List.count_reverse]
  refine List.count_eq_one_of_mem ?_ ?_
  · refine List.Nodup.map_on (fun k hk k' hk' heq ↦ ?_) List.nodup_range
    rw [List.mem_range] at hk hk'
    have hmod : k + 1 ≡ k' + 1 [MOD n] := Nat.ModEq.add_left_cancel' i (Option.some.inj heq)
    have := Nat.ModEq.eq_of_lt_of_lt hmod (by omega) (by omega)
    omega
  · rw [List.mem_map]
    rcases Nat.lt_or_gt_of_ne hne with hlt | hgt
    · refine ⟨j + n - i - 1, List.mem_range.2 (by omega), congrArg some ?_⟩
      rw [show i + (j + n - i - 1 + 1) = j + n by omega, Nat.add_mod_right, Nat.mod_eq_of_lt hj]
    · refine ⟨j - i - 1, List.mem_range.2 (by omega), congrArg some ?_⟩
      rw [show i + (j - i - 1 + 1) = j by omega, Nat.mod_eq_of_lt hj]

/-- Each event of a history follows the one before it. -/
theorem Chained.roundRobin {e : Event κ} {history : List (Event κ)} (h : Chained (e :: history)) :
    e.RoundRobin history := by
  rintro between e₀ before i rfl hdisp hdisp₀ hbetween hreg j hj hne
  obtain ⟨hchained, hle, -, -, he⟩ := h
  have hn : e.registered ≠ 0 := by omega
  -- no task was added in between
  have hsame : ∀ b ∈ between, b.registered = e.registered := by
    intro b hb
    obtain ⟨l₁, l₂, rfl⟩ := List.append_of_mem hb
    have hsuffix : Chained (b :: (l₂ ++ e₀ :: before)) := by
      rw [List.append_assoc] at hchained
      exact hchained.of_append
    exact le_antisymm (hle b (List.mem_append_left _ hb)) (hreg ▸ hsuffix.2.1 e₀ (by simp))
  have hi : i < e.registered := by
    rw [if_neg hn] at he
    rw [← Option.some.inj (he.symm.trans hdisp)]
    exact nextTask_lt (Nat.pos_of_ne_zero hn) _
  obtain ⟨hmap, hnext⟩ := Chained.dispatched_eq hreg hdisp₀ hi between hchained hsame
  rw [if_neg hn, hnext, hdisp] at he
  have hback : (i + (between.length + 1)) % e.registered = i := (Option.some.inj he).symm
  -- the calls came back to `i` for the first time
  have hlen : between.length = e.registered - 1 := by
    have hdvd : e.registered ∣ between.length + 1 := by
      have hmod : i + (between.length + 1) ≡ i + 0 [MOD e.registered] := by
        rw [Nat.ModEq, hback, Nat.add_zero, Nat.mod_eq_of_lt hi]
      exact (Nat.modEq_zero_iff_dvd).1 (Nat.ModEq.add_left_cancel' i hmod)
    have hge := Nat.le_of_dvd (Nat.succ_pos _) hdvd
    by_contra hlong
    have hmem : some i ∈ between.map Event.dispatched := by
      rw [hmap, List.mem_reverse, List.mem_map]
      refine ⟨e.registered - 1, List.mem_range.2 (by omega), congrArg some ?_⟩
      rw [show i + (e.registered - 1 + 1) = i + e.registered by omega, Nat.add_mod_right,
        Nat.mod_eq_of_lt hi]
    obtain ⟨b, hb, hb'⟩ := List.mem_map.1 hmem
    exact hbetween b hb hb'
  rw [hmap, hlen]
  exact count_others hi hj hne

/-- Once a task was dispatched every index touched is that of a task. -/
theorem Chained.inBounds {e e₀ : Event κ} {history : List (Event κ)} (h : Chained (e :: history))
    (he₀ : e₀ ∈ history) (hpos : 0 < e₀.registered) : e.InBounds := by
  obtain ⟨hchained, hle, -, htouched, -⟩ := h
  have hn : 0 < e.registered := lt_of_lt_of_le hpos (hle e₀ he₀)
  obtain ⟨e₁, rest, rfl⟩ := List.exists_cons_of_ne_nil (List.ne_nil_of_mem he₀)
  obtain ⟨-, hle₁, -, -, hdisp⟩ := hchained
  have hn₁ : 0 < e₁.registered := by
    rcases List.mem_cons.1 he₀ with rfl | hmem
    · exact hpos
    · exact lt_of_lt_of_le hpos (hle₁ e₀ hmem)
  have hcur : currentOf (e₁ :: rest).head? < e.registered := by
    rw [if_neg hn₁.ne'] at hdisp
    simp only [List.head?_cons, currentOf, hdisp, Option.getD_some]
    exact lt_of_lt_of_le (nextTask_lt hn₁ _) (hle e₁ List.mem_cons_self)
  intro i hi
  rw [htouched, if_neg hn.ne'] at hi
  rcases List.mem_cons.1 hi with rfl | hi
  · exact hcur
  · rw [List.mem_singleton.1 hi]
    exact nextTask_lt hn _

/-- The first call with a task touches the last index of the array. -/
theorem Chained.not_inBounds {e : Event κ} {history : List (Event κ)} (h : Chained (e :: history))
    (hbefore : ∀ e₀ ∈ history, e₀.registered = 0) (hpos : 0 < e.registered) : ¬ e.InBounds := by
  obtain ⟨hchained, -, hle, htouched, -⟩ := h
  have hcur : currentOf history.head? = 255 := by
    cases history with
    | nil => rfl
    | cons e₁ rest =>
      have hdisp := hchained.2.2.2.2
      rw [if_pos (hbefore e₁ List.mem_cons_self)] at hdisp
      simp only [List.head?_cons, currentOf, hdisp, Option.getD_none]
  intro hin
  have := hin 255 (by rw [htouched, if_neg hpos.ne', hcur]; exact List.mem_cons_self)
  omega

/-- The task of an event is one that was registered. -/
theorem Chained.dispatched_lt {e : Event κ} {history : List (Event κ)} (h : Chained (e :: history))
    {i : ℕ} (hi : e.dispatched = some i) : i < e.registered := by
  have hdisp := h.2.2.2.2
  rw [hi] at hdisp
  by_cases hn : e.registered = 0
  · rw [if_pos hn] at hdisp
    simp at hdisp
  · rw [if_neg hn] at hdisp
    rw [Option.some.inj hdisp]
    exact nextTask_lt (Nat.pos_of_ne_zero hn) _

/-! ### Runs -/

/-- What holds of the indices between the calls of a run. -/
structure System.Indexed (tasks : ℕ → τ) (s : System τ κ) : Prop where
  chained : Chained s.history
  le : ∀ e ∈ s.history, e.registered ≤ s.manager.numTasks.toNat
  current : s.manager.currentTask.toNat = currentOf s.history.head?
  last : s.manager.tasks 255 = tasks 255

/-- At first no task is registered. -/
theorem System.indexed_new (tasks : ℕ → τ) (cpustate : τ → κ) :
    (System.new tasks cpustate).Indexed tasks :=
  ⟨trivial, by simp [System.new], rfl, rfl⟩

/-- The number of tasks is one byte. -/
theorem TaskManager.numTasks_le (m : TaskManager τ κ) : m.numTasks.toNat ≤ 255 :=
  Nat.le_of_lt_succ m.numTasks.isLt

/-- What `AddTask` does where there is room. -/
theorem TaskManager.addTask_eq (m : TaskManager τ κ) (task : τ) (h : m.numTasks.toNat < 255) :
    (m.addTask task).2 = { m with
      tasks := Function.update m.tasks m.numTasks.toNat task, numTasks := m.numTasks + 1 } ∧
    (m.numTasks + 1).toNat = m.numTasks.toNat + 1 := by
  refine ⟨by rw [addTask, if_neg (by omega)], by bv_omega⟩

/-- The objects that are registered are different ones, and none is what `tasks[255]` points at. -/
def System.Fresh (tasks : ℕ → τ) (s : System τ κ) : Call τ κ → Prop
  | .addTask task =>
    task ≠ tasks 255 ∧ ∀ i < s.manager.numTasks.toNat, s.manager.tasks i ≠ task
  | .schedule _ => True

/-- What holds of the saved states between the calls of such a run. -/
structure System.Saved (tasks : ℕ → τ) (cpustate : τ → κ) (s : System τ κ) : Prop
    extends s.Indexed tasks where
  distinct : ∀ i < s.manager.numTasks.toNat, ∀ j < s.manager.numTasks.toNat,
    s.manager.tasks i = s.manager.tasks j → i = j
  ne_last : ∀ i < s.manager.numTasks.toNat, s.manager.tasks i ≠ tasks 255
  untouched : ∀ t, (∀ i < s.manager.numTasks.toNat, s.manager.tasks i ≠ t) → t ≠ tasks 255 →
    s.manager.cpustate t = cpustate t
  saved : ∀ i < s.manager.numTasks.toNat, currentOf s.history.head? ≠ i → ∀ c,
    s.manager.cpustate (s.manager.tasks i) =
      expected (cpustate (s.manager.tasks i)) c s.history i
  returns : ∀ after e before, s.history = after ++ e :: before →
    e.ReturnsSaved (fun i ↦ cpustate (s.manager.tasks i)) before

/-- At first every task has its own state. -/
theorem System.saved_new (tasks : ℕ → τ) (cpustate : τ → κ) :
    (System.new tasks cpustate).Saved tasks cpustate :=
  ⟨indexed_new tasks cpustate, fun i hi ↦ absurd hi (Nat.not_lt_zero i),
    fun i hi ↦ absurd hi (Nat.not_lt_zero i), fun _ _ _ ↦ rfl,
    fun i hi ↦ absurd hi (Nat.not_lt_zero i), by simp [System.new]⟩

/-- A task that was never dispatched has the state it was given. -/
theorem expected_of_not {p c : κ} {history : List (Event κ)} {i : ℕ}
    (h : ∀ e ∈ history, e.dispatched ≠ some i) : expected p c history i = p := by
  induction history generalizing c with
  | nil => rfl
  | cons e history ih =>
    rw [expected, if_neg (h e List.mem_cons_self)]
    exact ih fun e he ↦ h e (List.mem_cons_of_mem _ he)

variable [DecidableEq τ]

/-- A call keeps the tasks in the order they were registered in. -/
theorem System.Indexed.call {tasks : ℕ → τ} {s : System τ κ} (h : s.Indexed tasks)
    (call : Call τ κ) : (s.call call).Indexed tasks := by
  cases call with
  | addTask task =>
    -- `AddTask` stores below the last slot or does nothing
    by_cases hroom : s.manager.numTasks.toNat < 255
    · obtain ⟨heq, hnum⟩ := s.manager.addTask_eq task hroom
      simp only [System.call, heq]
      refine ⟨h.chained, fun e he ↦ ?_, h.current, ?_⟩
      · rw [hnum]
        exact Nat.le_succ_of_le (h.le e he)
      · rw [← h.last]
        exact Function.update_of_ne (by omega) _ _
    · have heq : (s.manager.addTask task).2 = s.manager := by
        rw [TaskManager.addTask, if_pos (by omega)]
      simp only [System.call, heq]
      exact h
  | schedule c =>
    by_cases hzero : s.manager.numTasks.toNat = 0
    · have heq : s.manager.schedule c = ⟨c, [], s.manager⟩ := by
        rw [TaskManager.schedule, if_pos (by omega)]
      simp only [System.call, heq]
      refine ⟨⟨h.chained, h.le, s.manager.numTasks_le, by rw [if_pos hzero],
        by rw [if_pos hzero]; rfl⟩, ?_, ?_, h.last⟩
      · -- each dispatch saw at most as many tasks as there are now
        intro e he
        rcases List.mem_cons.1 he with rfl | he
        · exact le_rfl
        · exact h.le e he
      · -- nothing was dispatched before
        rw [h.current]
        rcases hhist : s.history with _ | ⟨e, rest⟩
        · rfl
        · have hdisp := (hhist ▸ h.chained : Chained (e :: rest)).2.2.2.2
          have := h.le e (by rw [hhist]; exact List.mem_cons_self)
          rw [if_pos (by omega)] at hdisp
          simp [currentOf, hdisp]
    · have heq := s.manager.schedule_eq c (Nat.pos_of_ne_zero hzero)
      dsimp only at heq
      have hlt := nextTask_lt (Nat.pos_of_ne_zero hzero) s.manager.currentTask.toNat
      simp only [System.call, heq]
      refine ⟨⟨h.chained, h.le, s.manager.numTasks_le, ?_, ?_⟩, ?_, ?_, h.last⟩
      · rw [if_neg hzero, h.current]
      · rw [if_neg hzero, h.current]
        rfl
      · intro e he
        rcases List.mem_cons.1 he with rfl | he
        · exact le_rfl
        · exact h.le e he
      · have := s.manager.numTasks_le
        exact Nat.mod_eq_of_lt (show _ < 256 by omega)

/-- A new task comes with its own state. -/
theorem System.Saved.addTask {tasks : ℕ → τ} {cpustate : τ → κ} {s : System τ κ}
    (h : s.Saved tasks cpustate) {task : τ} (hfresh : s.Fresh tasks (.addTask task)) :
    (s.call (.addTask task)).Saved tasks cpustate := by
  have hindexed := h.toIndexed.call (.addTask task)
  by_cases hroom : s.manager.numTasks.toNat < 255
  swap
  · have heq : (s.manager.addTask task).2 = s.manager := by
      rw [TaskManager.addTask, if_pos (by omega)]
    rw [System.call, heq]
    exact h
  obtain ⟨heq, hnum⟩ := s.manager.addTask_eq task hroom
  rw [System.call, heq] at hindexed ⊢
  obtain ⟨hlast, hother⟩ := hfresh
  set n := s.manager.numTasks.toNat with hn
  have hself : Function.update s.manager.tasks n task n = task := Function.update_self ..
  have hold : ∀ i < n, Function.update s.manager.tasks n task i = s.manager.tasks i :=
    fun i hi ↦ Function.update_of_ne (by omega) _ _
  -- no call dispatched the new index
  have hnever : ∀ e ∈ s.history, e.dispatched ≠ some n := by
    intro e he hdisp
    obtain ⟨l₁, l₂, hl⟩ := List.append_of_mem he
    have hlt := (Chained.of_append (hl ▸ h.chained)).dispatched_lt hdisp
    have := h.le e he
    omega
  refine ⟨hindexed, fun i hi j hj hij ↦ ?_, fun i hi ↦ ?_, fun t ht hne ↦ ?_, fun i hi hcur c ↦ ?_,
    fun after e before hhist i hdisp ↦ ?_⟩
  all_goals try rw [show _ = n + 1 from hnum] at hi
  · rw [show _ = n + 1 from hnum] at hj
    dsimp only at hij
    rcases Nat.lt_succ_iff_lt_or_eq.1 hi with hi | rfl <;>
      rcases Nat.lt_succ_iff_lt_or_eq.1 hj with hj | rfl
    · rw [hold i hi, hold j hj] at hij
      exact h.distinct i hi j hj hij
    · rw [hold i hi, hself] at hij
      exact absurd hij (hother i hi)
    · rw [hself, hold j hj] at hij
      exact absurd hij.symm (hother j hj)
    · rfl
  · dsimp only
    rcases Nat.lt_succ_iff_lt_or_eq.1 hi with hi | rfl
    · rw [hold i hi]
      exact h.ne_last i hi
    · rw [hself]
      exact hlast
  · refine h.untouched t (fun i hi ↦ ?_) hne
    rw [← hold i hi]
    exact ht i (by rw [show _ = n + 1 from hnum]; omega)
  · dsimp only at hcur ⊢
    rcases Nat.lt_succ_iff_lt_or_eq.1 hi with hi | rfl
    · rw [hold i hi]
      exact h.saved i hi hcur c
    · rw [hself, expected_of_not hnever]
      exact h.untouched task hother hlast
  · have hlt : i < n := by
      have hmem : e ∈ s.history := by rw [show s.history = _ from hhist]; simp
      have hchained : Chained (after ++ e :: before) := hhist ▸ h.chained
      exact lt_of_lt_of_le (hchained.of_append.dispatched_lt hdisp) (h.le e hmem)
    dsimp only
    rw [hold i hlt]
    exact h.returns after e before hhist i hdisp

/-- A switch saves the state of the task it leaves. -/
theorem System.Saved.schedule {tasks : ℕ → τ} {cpustate : τ → κ} {s : System τ κ}
    (h : s.Saved tasks cpustate) (c : κ) : (s.call (.schedule c)).Saved tasks cpustate := by
  have hindexed := h.toIndexed.call (.schedule c)
  by_cases hzero : s.manager.numTasks.toNat = 0
  · have heq : s.manager.schedule c = ⟨c, [], s.manager⟩ := by
      rw [TaskManager.schedule, if_pos (by omega)]
    simp only [System.call, heq] at hindexed ⊢
    refine ⟨hindexed, h.distinct, h.ne_last, h.untouched,
      fun i hi ↦ absurd (show i < s.manager.numTasks.toNat from hi) (by omega),
      fun after e before hhist i hdisp ↦ ?_⟩
    rcases List.cons_eq_append_iff.1 hhist with ⟨rfl, heq⟩ | ⟨after', rfl, hrest⟩
    · obtain ⟨rfl, rfl⟩ := List.cons.inj heq
      simp at hdisp
    · exact h.returns after' e before hrest i hdisp
  have heq := s.manager.schedule_eq c (Nat.pos_of_ne_zero hzero)
  dsimp only at heq
  set cur := s.manager.currentTask.toNat with hcur
  set next := nextTask s.manager.numTasks.toNat cur with hnext
  have hlt : next < s.manager.numTasks.toNat := nextTask_lt (Nat.pos_of_ne_zero hzero) cur
  simp only [System.call, heq] at hindexed ⊢
  -- the object that is written is the one dispatched last, or what `tasks[255]` points at
  have hwritten : cur < s.manager.numTasks.toNat ∨ s.manager.tasks cur = tasks 255 := by
    by_cases hlast : cur = 255
    · exact .inr (by rw [hlast, h.last])
    · left
      rw [show cur = _ from h.current] at hlast ⊢
      rcases hhist : s.history with _ | ⟨e, rest⟩
      · rw [hhist] at hlast
        exact absurd rfl hlast
      · rw [hhist] at hlast
        rcases hdisp : e.dispatched with _ | i
        · simp [currentOf, hdisp] at hlast
        · have := (hhist ▸ h.chained : Chained (e :: rest)).dispatched_lt hdisp
          have := h.le e (by rw [hhist]; exact List.mem_cons_self)
          simp only [List.head?_cons, currentOf, hdisp, Option.getD_some]
          omega
  -- now every task has the pointer it is expected to return
  have hall : ∀ i < s.manager.numTasks.toNat,
      Function.update s.manager.cpustate (s.manager.tasks cur) c (s.manager.tasks i) =
        expected (cpustate (s.manager.tasks i)) c s.history i := by
    intro i hi
    by_cases heqi : i = cur
    · subst heqi
      rw [Function.update_self]
      have hcurrent := h.current
      rcases hhist : s.history with _ | ⟨e, rest⟩
      · rw [hhist] at hcurrent
        have := s.manager.numTasks_le
        simp only [List.head?_nil, currentOf] at hcurrent
        omega
      · rw [hhist] at hcurrent
        rcases hdisp : e.dispatched with _ | j
        · simp only [List.head?_cons, currentOf, hdisp, Option.getD_none] at hcurrent
          have := s.manager.numTasks_le
          omega
        · simp only [List.head?_cons, currentOf, hdisp, Option.getD_some] at hcurrent
          rw [expected, hdisp, ← hcurrent, if_pos rfl]
    · have hne : s.manager.tasks i ≠ s.manager.tasks cur := by
        rcases hwritten with hcurlt | hlast
        · exact fun heq ↦ heqi (h.distinct i hi cur hcurlt heq)
        · rw [hlast]
          exact h.ne_last i hi
      rw [Function.update_of_ne hne]
      exact h.saved i hi (h.current ▸ Ne.symm heqi) c
  refine ⟨hindexed, h.distinct, h.ne_last, fun t ht hne ↦ ?_, fun i hi hcur' c' ↦ ?_,
    fun after e before hhist i hdisp ↦ ?_⟩
  · have hne' : t ≠ s.manager.tasks cur := by
      rcases hwritten with hcurlt | hlast
      · exact (ht cur hcurlt).symm
      · rwa [hlast]
    show Function.update s.manager.cpustate (s.manager.tasks cur) c t = cpustate t
    rw [Function.update_of_ne hne']
    exact h.untouched t ht hne
  · have hne : some next ≠ some i := hcur' ∘ Option.some.inj
    refine (hall i hi).trans ?_
    rw [expected]
    exact (if_neg hne).symm
  · rcases List.cons_eq_append_iff.1 hhist with ⟨rfl, heq⟩ | ⟨after', rfl, hrest⟩
    · obtain ⟨rfl, rfl⟩ := List.cons.inj heq
      obtain rfl : next = i := Option.some.inj hdisp
      exact hall next hlt
    · exact h.returns after' e before hrest i hdisp

/-- Every run keeps the tasks in order. -/
theorem indexed_run (tasks : ℕ → τ) (cpustate : τ → κ) (calls : List (Call τ κ)) :
    (calls.foldl System.call (.new tasks cpustate)).Indexed tasks :=
  List.foldlRecOn calls System.call (System.indexed_new tasks cpustate) fun _ h call _ ↦ h.call call

/-- `Schedule` is not called while a task is registered. -/
def System.Idle (s : System τ κ) : Call τ κ → Prop
  | .addTask _ => True
  | .schedule _ => s.manager.numTasks.toNat = 0

omit [DecidableEq τ] in
/-- A history that is correct has no task registered. -/
theorem Correct.registered_eq_zero {initial : ℕ → κ} {history : List (Event κ)}
    (hchained : Chained history) (h : Correct initial history) : ∀ e ∈ history, e.registered = 0 := by
  induction history with
  | nil => simp
  | cons e history ih =>
    have hrest := ih hchained.1 fun after e' before heq ↦ h (e :: after) e' before (by rw [heq]; rfl)
    intro e' he'
    rcases List.mem_cons.1 he' with rfl | hmem
    · by_contra hne
      exact hchained.not_inBounds hrest (Nat.pos_of_ne_zero hne) (h [] e' history rfl).1
    · exact hrest e' hmem

/-- No task is registered in a run whose calls are all idle. -/
theorem registered_eq_zero_iff (calls : List (Call τ κ)) (s : System τ κ) :
    (∀ e ∈ (calls.foldl System.call s).history, e.registered = 0) ↔
      (∀ e ∈ s.history, e.registered = 0) ∧ Calls.Along System.call System.Idle calls s := by
  induction calls generalizing s with
  | nil => simp [Calls.Along]
  | cons call calls ih =>
    rw [List.foldl_cons, ih, Calls.Along, ← and_assoc]
    refine and_congr_left fun _ ↦ ?_
    cases call with
    | addTask task => simp [System.call, System.Idle]
    | schedule c => simp [System.call, System.Idle, and_comm]

/-- **The scheduler is correct exactly if it never schedules.** In every run, though, every call but
the first with a task touches registered tasks only, and the tasks take turns; and if the tasks are
different objects, none of them the one `tasks[255]` happens to point at, every call returns the pointer
that was saved for the task. -/
theorem correct_iff_idle (tasks : ℕ → τ) (cpustate : τ → κ) (calls : List (Call τ κ)) :
    let s := calls.foldl System.call (.new tasks cpustate)
    let initial := fun i ↦ cpustate (s.manager.tasks i)
    (Correct initial s.history ↔ Calls.Along System.call System.Idle calls (.new tasks cpustate)) ∧
    ∀ after e before, s.history = after ++ e :: before →
      ((∃ e₀ ∈ before, 0 < e₀.registered) → e.InBounds) ∧ e.RoundRobin before ∧
      (Calls.Along System.call (System.Fresh tasks) calls (.new tasks cpustate) →
        e.ReturnsSaved initial before) := by
  intro s initial
  have hindexed : s.Indexed tasks := indexed_run tasks cpustate calls
  refine ⟨⟨fun h ↦ ?_, fun h ↦ ?_⟩, fun after e before hhist ↦ ⟨?_, ?_, fun hfresh ↦ ?_⟩⟩
  · exact ((registered_eq_zero_iff calls _).1 (h.registered_eq_zero hindexed.chained)).2
  · have hzero := (registered_eq_zero_iff calls (.new tasks cpustate)).2 ⟨by simp [System.new], h⟩
    intro after e before hhist
    have hchained : Chained (e :: before) := Chained.of_append (hhist ▸ hindexed.chained)
    have he : e.registered = 0 := hzero e (by rw [show s.history = _ from hhist]; simp)
    have hdisp := hchained.2.2.2.2
    rw [if_pos he] at hdisp
    refine ⟨?_, fun i hi ↦ ?_, hchained.roundRobin⟩
    · intro i hi
      rw [hchained.2.2.2.1, if_pos he] at hi
      simp at hi
    · rw [hdisp] at hi
      simp at hi
  · have hchained : Chained (e :: before) := Chained.of_append (hhist ▸ hindexed.chained)
    rintro ⟨e₀, he₀, hpos⟩
    exact hchained.inBounds he₀ hpos
  · have hchained : Chained (e :: before) := Chained.of_append (hhist ▸ hindexed.chained)
    exact hchained.roundRobin
  · have hsaved : s.Saved tasks cpustate := by
      refine Calls.inv_of_along (fun s call h hcall ↦ ?_) (System.saved_new tasks cpustate) hfresh
      cases call with
      | addTask task => exact h.addTask hcall
      | schedule c => exact h.schedule c
    exact hsaved.returns after e before hhist

/-- One task, and the first tick of the timer: the state is saved in the object `tasks[255]` happens to
point at. -/
theorem not_correct_first :
    let s := List.foldl System.call (.new (fun _ ↦ 99) fun _ ↦ 0) [.addTask 1, .schedule 7]
    ¬ Correct (fun i ↦ (fun _ : ℕ ↦ (0 : ℕ)) (s.manager.tasks i)) s.history ∧
      s.manager.cpustate 99 = 7 := by
  refine ⟨fun h ↦ ?_, by decide⟩
  have hbounds := (h [] _ [] rfl).1 255 (by decide)
  revert hbounds
  decide

end Multitasking

end MiniExt4
