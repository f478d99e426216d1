import Mathlib.Algebra.Group.Int.Defs
import Mathlib.Algebra.Group.Nat.Defs
import Mathlib.Algebra.GroupWithZero.Nat
import Mathlib.Algebra.Order.Group.Nat
import Mathlib.Logic.Relation
import Mathlib.Order.Lattice
import Mathlib.Tactic.Common

/-!
# The thread pool

`oui_threadpool.cpp`: threads that take tasks from one queue, with a mutex and a condition variable.

* `Pool`, `step`: the state between two accesses to what the threads share, and one such
  access, of any thread;
* `Inv`: what every interleaving keeps;
* `done_of_count`: when `GetTasksCount` is 0, all tasks are done, with those that tasks have added;
* `internal_ends`, `rest_done`: left alone the pool comes to rest, and then all tasks are done;
* `stop_joins_iff`: when `Stop` comes back.

`NotifyStop` sets its flag without the lock of the tasks. A thread that has read the flag before and
waits after the notification is never woken, and `JoinAll` waits for it.
-/

namespace Diana.Orthia.ThreadPool

/-! ## The pool -/

/-- A thread in `MainLoop`. -/
inductive Worker (τ : Type) where
  /-- before `!m_stopped` -/
  | top
  /-- before the lock -/
  | checked
  | waiting
  /-- notified -/
  | woken
  /-- in `task()`, with the tasks that it is still to add -/
  | running (task : τ) (adds : List τ)
  /-- before `--m_activeTasksCount` -/
  | leaving
  | exited

/-- The task that a thread is in. -/
def Worker.task? {τ : Type} : Worker τ → Option τ
  | running t _ => some t
  | _ => none

/-- `m_activeTasksCount` counts the thread. -/
def Worker.isActive {τ : Type} : Worker τ → Bool
  | running .. => true
  | leaving => true
  | _ => false

def Worker.isWaiting {τ : Type} : Worker τ → Bool
  | waiting => true
  | _ => false

def Worker.isChecked {τ : Type} : Worker τ → Bool
  | checked => true
  | _ => false

/-- `CThreadPool`, and what has happened to tasks so far. -/
structure Pool (τ : Type) where
  /-- `m_stopped` -/
  stopped : Bool
  /-- `m_threads` -/
  workers : List (Worker τ)
  /-- `m_tasks` -/
  tasks : List τ
  /-- `m_activeTasksCount` -/
  active : Nat
  /-- the calls of `AddTask` and `NotifyStop` before their `notify_all` -/
  notifying : Nat
  added : List τ
  started : List τ
  finished : List τ

variable {τ : Type}

def Pool.empty : Pool τ := ⟨false, [], [], 0, 0, [], [], []⟩

/-- `GetTasksCount`, a sum of two `int`s. -/
def Pool.getTasksCount (p : Pool τ) : Int :=
  (BitVec.ofNat 32 p.tasks.length + BitVec.ofNat 32 p.active).toInt

/-- `AddTask`, up to its `notify_all`. -/
def Pool.addTask (p : Pool τ) (t : τ) : Pool τ :=
  { p with tasks := p.tasks ++ [t], notifying := p.notifying + 1, added := p.added ++ [t] }

/-- What a thread does next in `MainLoop`; `body` is the tasks that a task adds. -/
def Pool.mainLoop (body : τ → List τ) (p : Pool τ) : Worker τ → Option (Worker τ × Pool τ)
  | .top => some (if p.stopped then .exited else .checked, p)
  | .checked =>
    match p.tasks with
    | [] => some (.waiting, p)
    | t :: tasks =>
      some (.running t (body t),
        { p with tasks, active := p.active + 1, started := p.started ++ [t] })
  | .woken => some (.top, p)
  | .running t (u :: adds) => some (.running t adds, p.addTask u)
  | .running t [] => some (.leaving, { p with finished := p.finished ++ [t] })
  | .leaving => some (.top, { p with active := p.active - 1 })
  | .waiting => none
  | .exited => none

def Worker.notified : Worker τ → Worker τ
  | .waiting => .woken
  | w => w

inductive Action (τ : Type) where
  | turn (i : Nat)
  /-- `notify_all` -/
  | notify
  | addTask (t : τ)
  | addThread
  /-- `NotifyStop`, up to its `notify_all` -/
  | stop
  /-- a wakeup that nobody asked for -/
  | spurious (i : Nat)

/-- The steps that the pool takes by itself. -/
def Action.isInternal : Action τ → Bool
  | turn _ => true
  | notify => true
  | _ => false

def step (body : τ → List τ) (p : Pool τ) : Action τ → Option (Pool τ)
  | .turn i =>
    (p.workers[i]?.bind (p.mainLoop body)).map fun r => { r.2 with workers := p.workers.set i r.1 }
  | .notify =>
    if p.notifying = 0 then none
    else some { p with notifying := p.notifying - 1, workers := p.workers.map Worker.notified }
  | .addTask t => some (p.addTask t)
  | .addThread => some { p with workers := p.workers ++ [.top] }
  | .stop => some { p with stopped := true, notifying := p.notifying + 1 }
  | .spurious i =>
    match p.workers[i]? with
    | some .waiting => some { p with workers := p.workers.set i .woken }
    | _ => none

/-- `q` comes after `p`. -/
def Steps (body : τ → List τ) (p q : Pool τ) : Prop := ∃ a, step body p a = some q

def Internal (body : τ → List τ) (p q : Pool τ) :
    Prop := ∃ a, a.isInternal = true ∧ step body p a = some q

def Reachable (body : τ → List τ) (p : Pool τ) : Prop := Relation.ReflTransGen (Steps body) .empty p

/-- Nothing is left to do for the pool itself. -/
def Quiescent (body : τ → List τ) (p : Pool τ) : Prop := ∀ q, ¬ Internal body p q

/-! ## What a step can do -/

variable {body : τ → List τ} {p q r : Pool τ} {w w' : Worker τ}

/-- A turn of `MainLoop`, case by case. -/
inductive Move (body : τ → List τ) (p : Pool τ) : Worker τ → Worker τ → Pool τ → Prop where
  | exit (h : p.stopped = true) : Move body p .top .exited p
  | check (h : p.stopped = false) : Move body p .top .checked p
  | wait (h : p.tasks = []) : Move body p .checked .waiting p
  | take {t : τ} {tasks : List τ} (h : p.tasks = t :: tasks) :
    Move body p .checked (.running t (body t)) { p with
      tasks, active := p.active + 1, started := p.started ++ [t] }
  | wake : Move body p .woken .top p
  | add {t u : τ} {adds : List τ} : Move body p (.running t (u :: adds)) (.running t adds)
      (p.addTask u)
  | finish {t : τ} : Move body p (.running t []) .leaving { p with finished := p.finished ++ [t] }
  | leave : Move body p .leaving .top { p with active := p.active - 1 }

theorem move_of_mainLoop (h : p.mainLoop body w = some (w', r)) : Move body p w w' r := by
  unfold Pool.mainLoop at h
  split at h
  · by_cases hs : p.stopped = true
    · rw [if_pos hs] at h
      cases h
      exact .exit hs
    · rw [if_neg hs] at h
      cases h
      exact .check (Bool.eq_false_iff.2 hs)
  · split at h
    · next hempty =>
      cases h
      exact .wait hempty
    · next hcons =>
      cases h
      exact .take hcons
  all_goals cases h
  · exact .wake
  · exact .add
  · exact .finish
  · exact .leave

theorem Move.mem_added (h : Move body p w w' r) {u : τ} (hu : u ∈ p.added) : u ∈ r.added := by
  cases h with
  | add => exact List.mem_append_left _ hu
  | _ => exact hu

theorem turn_cases {i : Nat} (h : step body p (.turn i) = some q) :
    ∃ pre w post w' r, p.workers = pre ++ w :: post ∧ Move body p w w' r ∧
    q = { r with workers := pre ++ w' :: post } := by
  obtain ⟨⟨w', r⟩, hmain, rfl⟩ := Option.map_eq_some_iff.1 h
  obtain ⟨w, hw, hmain⟩ := Option.bind_eq_some_iff.1 hmain
  obtain ⟨hi, rfl⟩ := List.getElem?_eq_some_iff.1 hw
  refine ⟨p.workers.take i, p.workers[i], p.workers.drop (i + 1), w', r, ?_,
    move_of_mainLoop hmain, ?_⟩
  · rw [← List.drop_eq_getElem_cons hi, List.take_append_drop]
  · rw [List.set_eq_take_append_cons_drop, if_pos hi]

/-! ## What every interleaving keeps -/

structure Inv (body : τ → List τ) (p : Pool τ) : Prop where
  active : p.active = p.workers.countP Worker.isActive
  /-- tasks are taken in the order in which they were added -/
  order : p.added = p.started ++ p.tasks
  /-- a task that was taken is done or in one thread -/
  perm : p.started.Perm (p.finished ++ p.workers.filterMap Worker.task?)
  adds : ∀ t ∈ p.finished, ∀ u ∈ body t, u ∈ p.added
  adding : ∀ t adds, .running t adds ∈ p.workers → ∀ u ∈ body t, u ∈ p.added ∨ u ∈ adds
  /-- nobody waits for a task that is there, unless about to be notified -/
  awake : .waiting ∈ p.workers → p.tasks ≠ [] → 0 < p.notifying
  exited : .exited ∈ p.workers → p.stopped = true

theorem inv_empty : Inv body (.empty : Pool τ) where
  active := rfl
  order := rfl
  perm := .nil
  adds _ h := absurd h List.not_mem_nil
  adding _ _ h := absurd h List.not_mem_nil
  awake h := absurd h List.not_mem_nil
  exited h := absurd h List.not_mem_nil

section Turn

variable {pre post : List (Worker τ)} (hinv : Inv body p) (hw : p.workers = pre ++ w :: post)
  (hmove : Move body p w w' r)
include hinv hw hmove

theorem turn_active : r.active = (pre ++ w' :: post).countP Worker.isActive := by
  have h := hinv.active
  rw [hw] at h
  cases hmove <;>
    simp only [Pool.addTask, List.countP_append, List.countP_cons, Worker.isActive,
      Bool.false_eq_true, if_true, if_false] at h ⊢ <;>
    omega

theorem turn_order : r.added = r.started ++ r.tasks := by
  have h := hinv.order
  cases hmove with
  | take htasks =>
    rw [htasks] at h
    rw [h, List.append_assoc]
    rfl
  | add => exact (congrArg (· ++ _) h).trans (List.append_assoc ..)
  | _ => exact h

theorem turn_perm : r.started.Perm (r.finished ++ (pre ++ w' :: post).filterMap Worker.task?) := by
  have h := hinv.perm
  rw [hw] at h
  cases hmove with
  | @take t _ _ =>
    simp only [List.filterMap_append, List.filterMap_cons, Worker.task?] at h ⊢
    rw [← List.append_assoc] at h ⊢
    exact (h.append_right [t]).trans ((List.perm_append_singleton t _).trans List.perm_middle.symm)
  | @finish t =>
    simp only [List.filterMap_append, List.filterMap_cons, Worker.task?] at h ⊢
    rw [← List.append_assoc] at h
    refine (h.trans List.perm_middle).trans ?_
    rw [List.append_assoc, List.append_assoc, List.singleton_append]
    exact List.perm_middle.symm
  | add =>
    simpa only [List.filterMap_append, List.filterMap_cons, Worker.task?, Pool.addTask] using h
  | _ => simpa only [List.filterMap_append, List.filterMap_cons, Worker.task?] using h

theorem turn_adds : ∀ t ∈ r.finished, ∀ u ∈ body t, u ∈ r.added := by
  have hfinished : ∀ t ∈ p.finished, ∀ u ∈ body t, u ∈ r.added :=
    fun t ht u hu => hmove.mem_added (hinv.adds t ht u hu)
  cases hmove with
  | finish =>
    intro t ht u hu
    rcases List.mem_append.1 ht with ht | ht
    · exact hfinished t ht u hu
    · obtain rfl := List.mem_singleton.1 ht
      have hmem : Worker.running t [] ∈ p.workers := by
        rw [hw]
        exact List.mem_append_right _ List.mem_cons_self
      exact (hinv.adding t [] hmem u hu).resolve_right List.not_mem_nil
  | _ => exact hfinished

theorem turn_adding : ∀ t adds, .running t adds ∈ pre ++ w' :: post → ∀ u ∈ body t,
    u ∈ r.added ∨ u ∈ adds := by
  intro t adds hmem u hu
  have hsame : Worker.running t adds ∈ p.workers → u ∈ r.added ∨ u ∈ adds := fun h =>
    (hinv.adding t adds h u hu).imp_left (hmove.mem_added)
  rw [hw] at hsame
  simp only [List.mem_append, List.mem_cons] at hmem hsame
  rcases hmem with hmem | heq | hmem
  · exact hsame (.inl hmem)
  · cases hmove with
    | take =>
      cases heq
      exact .inr hu
    | @add t' v adds' =>
      cases heq
      have hold := hinv.adding t (v :: adds)
          (by rw [hw]; exact List.mem_append_right _ List.mem_cons_self) u hu
      rcases hold with hold | hold
      · exact .inl (List.mem_append_left _ hold)
      · rcases List.mem_cons.1 hold with rfl | hold
        · exact .inl (List.mem_append_right _ (List.mem_singleton_self u))
        · exact .inr hold
    | _ => cases heq
  · exact hsame (.inr (.inr hmem))

theorem turn_awake (hwait : .waiting ∈ pre ++ w' :: post) (htasks : r.tasks ≠ []) :
    0 < r.notifying := by
  have hold : .waiting ∈ pre ++ post → p.tasks ≠ [] → 0 < p.notifying := by
    intro hmem
    refine hinv.awake ?_
    rw [hw]
    simp only [List.mem_append, List.mem_cons] at hmem ⊢
    exact hmem.imp_right .inr
  have hrest : w' ≠ .waiting → .waiting ∈ pre ++ post := by
    intro hne
    simp only [List.mem_append, List.mem_cons] at hwait ⊢
    exact hwait.imp_right fun h => h.resolve_left fun heq => hne heq.symm
  cases hmove with
  | wait hempty => exact absurd hempty htasks
  | take hcons => exact hold (hrest (by simp)) (by rw [hcons]; exact List.cons_ne_nil _ _)
  | add => exact Nat.succ_pos _
  | _ => exact hold (hrest (by simp)) htasks

theorem turn_exited (hmem : .exited ∈ pre ++ w' :: post) : r.stopped = true := by
  have hold : .exited ∈ pre ++ post → p.stopped = true := by
    intro hmem
    refine hinv.exited ?_
    rw [hw]
    simp only [List.mem_append, List.mem_cons] at hmem ⊢
    exact hmem.imp_right .inr
  have hrest : w' ≠ .exited → .exited ∈ pre ++ post := by
    intro hne
    simp only [List.mem_append, List.mem_cons] at hmem ⊢
    exact hmem.imp_right fun h => h.resolve_left fun heq => hne heq.symm
  cases hmove with
  | exit h => exact h
  | _ => exact hold (hrest (by simp))

end Turn

theorem isActive_notified :
    Worker.isActive ∘ (Worker.notified : Worker τ → _) = Worker.isActive := by
  funext w
  cases w <;> rfl

theorem task?_notified : Worker.task? ∘ (Worker.notified : Worker τ → _) = Worker.task? := by
  funext w
  cases w <;> rfl

theorem notified_ne_waiting (w : Worker τ) :
    w.notified ≠ .waiting := by cases w <;> simp [Worker.notified]

theorem mem_map_notified {workers : List (Worker τ)} (hw : w ≠ .woken)
    (h : w ∈ workers.map Worker.notified) : w ∈ workers := by
  obtain ⟨v, hv, rfl⟩ := List.mem_map.1 h
  cases v with
  | waiting => exact absurd rfl hw
  | _ => exact hv

theorem Inv.step {a : Action τ} (hinv : Inv body p) (h : step body p a = some q) : Inv body q := by
  cases a with
  | turn i =>
    obtain ⟨pre, w, post, w', r, hw, hmove, rfl⟩ := turn_cases h
    have hactive := turn_active hinv hw hmove
    have horder := turn_order hinv hw hmove
    have hperm := turn_perm hinv hw hmove
    have hadds := turn_adds hinv hw hmove
    have hadding := turn_adding hinv hw hmove
    have hawake := turn_awake hinv hw hmove
    have hexited := turn_exited hinv hw hmove
    exact ⟨hactive, horder, hperm, hadds, hadding, hawake, hexited⟩
  | notify =>
    rw [ThreadPool.step] at h
    split at h
    · cases h
    · cases h
      refine ⟨?_, hinv.order, ?_, hinv.adds, fun t adds hmem => ?_, fun hmem => ?_, fun hmem => ?_⟩
      · dsimp only
        rw [hinv.active, List.countP_map, isActive_notified]
      · dsimp only
        rw [List.filterMap_map, task?_notified]
        exact hinv.perm
      · exact hinv.adding t adds (mem_map_notified (by simp) hmem)
      · obtain ⟨v, -, hv⟩ := List.mem_map.1 hmem
        exact absurd hv (notified_ne_waiting v)
      · exact hinv.exited (mem_map_notified (by simp) hmem)
  | addTask t =>
    cases h
    refine ⟨hinv.active, ?_, hinv.perm, fun t ht u hu => ?_, fun t adds hmem u hu => ?_,
      fun _ _ => Nat.succ_pos _, hinv.exited⟩
    · exact (congrArg (· ++ _) hinv.order).trans (List.append_assoc ..)
    · exact List.mem_append_left _ (hinv.adds t ht u hu)
    · exact (hinv.adding t adds hmem u hu).imp_left (List.mem_append_left _)
  | addThread =>
    cases h
    refine ⟨?_, hinv.order, ?_, hinv.adds, fun t adds hmem => ?_, fun hmem => ?_, fun hmem => ?_⟩
    · simpa [List.countP_append, Worker.isActive] using hinv.active
    · have hnone : (p.workers ++ [Worker.top]).filterMap Worker.task? =
          p.workers.filterMap Worker.task? :=
        List.filterMap_append.trans (List.append_nil _)
      dsimp only
      rw [hnone]
      exact hinv.perm
    · exact hinv.adding t adds (by simpa using hmem)
    · exact hinv.awake (by simpa using hmem)
    · exact hinv.exited (by simpa using hmem)
  | stop =>
    cases h
    exact ⟨hinv.active, hinv.order, hinv.perm, hinv.adds, hinv.adding, fun _ _ => Nat.succ_pos _,
      fun _ => rfl⟩
  | spurious i =>
    rw [ThreadPool.step] at h
    split at h
    · next hwait =>
      cases h
      obtain ⟨hi, hget⟩ := List.getElem?_eq_some_iff.1 hwait
      have hsplit : p.workers = p.workers.take i ++ .waiting :: p.workers.drop (i + 1) := by
        rw [← hget, ← List.drop_eq_getElem_cons hi, List.take_append_drop]
      have hset : p.workers.set i .woken =
          p.workers.take i ++ .woken :: p.workers.drop (i + 1) := by
        rw [List.set_eq_take_append_cons_drop, if_pos hi]
      have hmem : ∀ v : Worker τ, v ≠ .woken → v ∈ p.workers.set i .woken → v ∈ p.workers := by
        intro v hne hv
        rw [hset] at hv
        rw [hsplit]
        simp only [List.mem_append, List.mem_cons] at hv ⊢
        exact hv.imp_right fun h => .inr (h.resolve_left hne)
      refine ⟨?_, hinv.order, ?_, hinv.adds,
        fun t adds h => hinv.adding t adds (hmem _ (by simp) h),
        fun h => hinv.awake (hmem _ (by simp) h), fun h => hinv.exited (hmem _ (by simp) h)⟩
      · have h := hinv.active
        rw [hsplit] at h
        dsimp only
        rw [hset]
        simpa [List.countP_append, List.countP_cons, Worker.isActive] using h
      · have h := hinv.perm
        rw [hsplit] at h
        dsimp only
        rw [hset]
        simpa only [List.filterMap_append, List.filterMap_cons, Worker.task?] using h
    · cases h

theorem inv_of_reachable (h : Reachable body p) : Inv body p := by
  induction h with
  | refl => exact inv_empty
  | tail _ hstep ih =>
    obtain ⟨a, ha⟩ := hstep
    exact ih.step ha

/-! ## The count -/

/-- Each task that was added is done exactly once, and so is each task that a task has added. -/
def Pool.AllDone (body : τ → List τ) (p : Pool τ) : Prop :=
  p.finished.Perm p.added ∧ ∀ t ∈ p.finished, ∀ u ∈ body t, u ∈ p.finished

theorem Inv.allDone (hinv : Inv body p) (htasks : p.tasks = []) (hactive : p.active = 0) :
    p.AllDone body := by
  have hnone : p.workers.filterMap Worker.task? = [] := by
    have hcount := hinv.active
    rw [hactive, eq_comm, List.countP_eq_zero] at hcount
    rw [List.filterMap_eq_nil_iff]
    intro w hw
    have := hcount w hw
    cases w with
    | running t adds => exact absurd rfl this
    | _ => rfl
  have hperm : p.finished.Perm p.added := by
    have h := hinv.perm
    rw [hnone, List.append_nil] at h
    rw [hinv.order, htasks, List.append_nil]
    exact h.symm
  exact ⟨hperm, fun t ht u hu => hperm.mem_iff.2 (hinv.adds t ht u hu)⟩

/-- The count is right up to the largest `int`. -/
theorem getTasksCount_eq (hlt : p.tasks.length + p.active < 2 ^ 31) :
    p.getTasksCount = (p.tasks.length + p.active : Nat) := by
  rw [Pool.getTasksCount, ← BitVec.ofNat_add, BitVec.toInt_ofNat',
    Int.bmod_eq_of_le (by omega) (by omega)]

/-- `GetTasksCount` is never 0 while there is work left, not even between a task and those that it
adds. -/
theorem done_of_count (h : Reachable body p) (hlt : p.tasks.length + p.active < 2 ^ 31)
    (hcount : p.getTasksCount = 0) : p.AllDone body := by
  rw [getTasksCount_eq hlt, Int.natCast_eq_zero] at hcount
  exact (inv_of_reachable h).allDone (List.eq_nil_of_length_eq_zero (by omega)) (by omega)

theorem reachable_of_run (actions : List (Action τ)) (hp : Reachable body p)
    (h : actions.foldlM (step body) p = some q) : Reachable body q := by
  induction actions generalizing p with
  | nil =>
    cases h
    exact hp
  | cons a actions ih =>
    rw [List.foldlM_cons] at h
    obtain ⟨r, hr, h⟩ := Option.bind_eq_some_iff.1 h
    exact ih (hp.tail ⟨a, hr⟩) h

/-- A task that adds the one before it. -/
def chain : Nat → List Nat
  | 0 => []
  | n + 1 => [n]

/-- One thread with a task and the task that it has added. -/
def chained : Pool Nat := ⟨false, [.top], [], 0, 1, [1, 0], [1, 0], [1, 0]⟩

theorem done_of_count_chained : chained.AllDone chain :=
  done_of_count (reachable_of_run [.addThread, .addTask 1, .notify, .turn 0, .turn 0, .turn 0,
    .turn 0, .turn 0, .turn 0, .turn 0, .turn 0, .turn 0] .refl rfl) (by decide) (by decide)

/-! ## Rest -/

section Weight

variable (hwf : WellFounded fun u t : τ => u ∈ body t)

/-- The turns that a task in the queue still stands for, when a notification stands for `n`. -/
noncomputable def taskWeight (n : Nat) : τ → Nat :=
  hwf.fix fun t weight => 4 + ((body t).attach.map fun u => weight u.1 u.2 + n + 1).sum

theorem taskWeight_eq (n : Nat) (t : τ) :
    taskWeight hwf n t = 4 + ((body t).map fun u => taskWeight hwf n u + n + 1).sum := by
  rw [taskWeight, hwf.fix_eq]
  exact congrArg (fun l : List Nat => 4 + l.sum)
    (List.attach_map_val (f := fun u => taskWeight hwf n u + n + 1))

noncomputable def Worker.weight (n : Nat) : Worker τ → Nat
  | top => 2
  | checked => 1
  | waiting => 0
  | woken => 3
  | running _ adds => 4 + (adds.map fun u => taskWeight hwf n u + n + 1).sum
  | leaving => 3
  | exited => 0

noncomputable def Pool.weight (p : Pool τ) : Nat :=
  let n := 3 * p.workers.length + 1
  (p.workers.map (Worker.weight hwf n)).sum + (p.tasks.map (taskWeight hwf n)).sum + p.notifying * n

theorem sum_notified_le (n : Nat) (workers : List (Worker τ)) :
    ((workers.map Worker.notified).map (Worker.weight hwf n)).sum ≤
      (workers.map (Worker.weight hwf n)).sum + 3 * workers.length := by
  induction workers with
  | nil => exact Nat.le_refl 0
  | cons w workers ih =>
    simp only [List.map_cons, List.sum_cons, List.length_cons]
    have hw : Worker.weight hwf n w.notified ≤ Worker.weight hwf n w + 3 := by
      cases w <;> simp [Worker.notified, Worker.weight]
    omega

/-- Each step that the pool takes by itself uses some of its weight up. -/
theorem Internal.weight_lt (h : Internal body p q) : q.weight hwf < p.weight hwf := by
  obtain ⟨a, hinternal, h⟩ := h
  cases a with
  | turn i =>
    obtain ⟨pre, w, post, w', r, hw, hmove, rfl⟩ := turn_cases h
    have hlength : (pre ++ w' :: post).length = p.workers.length := by
      rw [hw]
      simp
    unfold Pool.weight
    dsimp only
    rw [hlength, hw]
    cases hmove with
    | @take t tasks htasks =>
      have hweight := taskWeight_eq hwf (3 * (pre ++ .checked :: post).length + 1) t
      simp only [List.map_append, List.map_cons, List.sum_append, List.sum_cons,
        Worker.weight, htasks]
      omega
    | add =>
      simp only [Pool.addTask, List.map_append, List.map_cons, List.map_nil, List.sum_append,
        List.sum_cons, List.sum_nil, Worker.weight, Nat.add_mul, Nat.one_mul]
      omega
    | _ =>
      simp only [List.map_append, List.map_cons, List.map_nil, List.sum_append, List.sum_cons,
        List.sum_nil, Worker.weight]
      omega
  | notify =>
    rw [step] at h
    split at h
    · cases h
    · next hne =>
      cases h
      obtain ⟨k, hk⟩ := Nat.exists_eq_succ_of_ne_zero hne
      have hle := sum_notified_le hwf (3 * p.workers.length + 1) p.workers
      unfold Pool.weight
      dsimp only
      rw [List.length_map, hk, Nat.succ_sub_one, Nat.succ_mul k]
      omega
  | _ => cases hinternal

/-- Left alone, the pool comes to rest. -/
theorem internal_ends (actions : List (Action τ)) (hinternal : ∀ a ∈ actions, a.isInternal = true)
    (h : actions.foldlM (step body) p = some q) : actions.length ≤ p.weight hwf := by
  induction actions generalizing p with
  | nil => exact Nat.zero_le _
  | cons a actions ih =>
    rw [List.foldlM_cons] at h
    obtain ⟨r, hr, h⟩ := Option.bind_eq_some_iff.1 h
    have hlt := Internal.weight_lt hwf ⟨a, hinternal a List.mem_cons_self, hr⟩
    have hle := ih (fun b hb => hinternal b (List.mem_cons_of_mem _ hb)) h
    rw [List.length_cons]
    omega

include hwf in
theorem exists_quiescent (p : Pool τ) :
    ∃ q, Relation.ReflTransGen (Internal body) p q ∧ Quiescent body q := by
  induction hweight : p.weight hwf using Nat.strong_induction_on generalizing p with
  | _ n ih =>
    by_cases hquiet : Quiescent body p
    · exact ⟨p, .refl, hquiet⟩
    · obtain ⟨r, hr⟩ := not_forall_not.1 hquiet
      obtain ⟨q, hrun, hq⟩ := ih _ (hweight ▸ Internal.weight_lt hwf hr) r rfl
      exact ⟨q, .head hr hrun, hq⟩

end Weight

theorem Quiescent.notifying_eq (h : Quiescent body p) : p.notifying = 0 := by
  by_contra hne
  exact h _ ⟨.notify, rfl, if_neg hne⟩

/-- At rest a thread waits or is gone. -/
theorem Quiescent.worker (h : Quiescent body p) (hw : w ∈ p.workers) :
    w = .waiting ∨ w = .exited := by
  obtain ⟨i, hi, rfl⟩ := List.getElem_of_mem hw
  have hnone : p.mainLoop body p.workers[i] = none := by
    by_contra hne
    obtain ⟨r, hr⟩ := Option.ne_none_iff_exists'.1 hne
    refine h { r.2 with workers := p.workers.set i r.1 } ⟨.turn i, rfl, ?_⟩
    rw [step, List.getElem?_eq_getElem hi, Option.bind_some, hr]
    rfl
  cases hworker : p.workers[i] with
  | waiting => exact .inl rfl
  | exited => exact .inr rfl
  | checked =>
    rw [hworker, Pool.mainLoop] at hnone
    split at hnone <;> cases hnone
  | running t adds =>
    rw [hworker] at hnone
    cases adds <;> cases hnone
  | _ =>
    rw [hworker] at hnone
    cases hnone

/-- At rest all tasks are done, if there are threads and nobody has stopped them. -/
theorem Quiescent.allDone (h : Quiescent body p) (hinv : Inv body p) (hstop : p.stopped = false)
    (hworkers : p.workers ≠ []) : p.AllDone body ∧ p.getTasksCount = 0 := by
  have hwaiting : ∀ w ∈ p.workers, w = .waiting := by
    intro w hw
    refine (h.worker hw).resolve_right ?_
    rintro rfl
    rw [hinv.exited hw] at hstop
    cases hstop
  have hactive : p.active = 0 := by
    rw [hinv.active, List.countP_eq_zero]
    intro w hw
    rw [hwaiting w hw]
    exact Bool.false_ne_true
  have htasks : p.tasks = [] := by
    by_contra hne
    obtain ⟨w, hw⟩ := List.exists_mem_of_ne_nil _ hworkers
    have hpos := hinv.awake (hwaiting w hw ▸ hw) hne
    rw [h.notifying_eq] at hpos
    exact Nat.lt_irrefl 0 hpos
  refine ⟨hinv.allDone htasks hactive, ?_⟩
  rw [Pool.getTasksCount, htasks, hactive]
  rfl

theorem Internal.keeps (h : Internal body p q) :
    q.stopped = p.stopped ∧ q.workers.length = p.workers.length := by
  obtain ⟨a, hinternal, h⟩ := h
  cases a with
  | turn i =>
    obtain ⟨pre, w, post, w', r, hw, hmove, rfl⟩ := turn_cases h
    refine ⟨by cases hmove <;> rfl, ?_⟩
    rw [hw]
    simp
  | notify =>
    rw [step] at h
    split at h
    · cases h
    · cases h
      exact ⟨rfl, List.length_map ..⟩
  | _ => cases hinternal

theorem Internal.run_keeps (h : Relation.ReflTransGen (Internal body) p q) :
    q.stopped = p.stopped ∧ q.workers.length = p.workers.length := by
  induction h with
  | refl => exact ⟨rfl, rfl⟩
  | tail _ hstep ih => exact ⟨hstep.keeps.1.trans ih.1, hstep.keeps.2.trans ih.2⟩

theorem Inv.internal_run (hinv : Inv body p) (h : Relation.ReflTransGen (Internal body) p q) :
    Inv body q := by
  induction h with
  | refl => exact hinv
  | tail _ hstep ih =>
    obtain ⟨a, -, ha⟩ := hstep
    exact ih.step ha

/-- Unless tasks go on adding tasks for ever, a pool with a thread that is not stopped
comes to rest after a bounded number of its own steps, in whatever order these come, and
then all tasks are done. -/
theorem rest_done (hwf : WellFounded fun u t : τ => u ∈ body t) (hp : Reachable body p)
    (hstop : p.stopped = false) (hworkers : p.workers ≠ []) :
    (∃ n, ∀ actions : List (Action τ), (∀ a ∈ actions, a.isInternal = true) →
        ∀ q, actions.foldlM (step body) p = some q → actions.length ≤ n) ∧
      ∀ q, Relation.ReflTransGen (Internal body) p q → Quiescent body q → q.AllDone body ∧
      q.getTasksCount = 0 := by
  refine ⟨⟨p.weight hwf, fun actions hinternal q h => internal_ends hwf actions hinternal h⟩,
    fun q hrun hq => ?_⟩
  obtain ⟨hstopped, hlength⟩ := Internal.run_keeps hrun
  refine hq.allDone ((inv_of_reachable hp).internal_run hrun) (hstopped.trans hstop) fun hnil =>
    hworkers ?_
  rw [hnil] at hlength
  exact List.eq_nil_of_length_eq_zero hlength.symm

theorem chain_wf : WellFounded fun u t : Nat => u ∈ chain t := by
  refine Subrelation.wf (fun {u t} h => ?_) Nat.lt_wfRel.wf
  cases t with
  | zero => exact absurd h List.not_mem_nil
  | succ t =>
    obtain rfl := List.mem_singleton.1 h
    exact Nat.lt_succ_self u

/-- The pool of one thread with a task in its queue. -/
def oneTask : Pool Nat := ⟨false, [.top], [1], 0, 0, [1], [], []⟩

theorem rest_done_oneTask :
    (∃ n, ∀ actions : List (Action Nat), (∀ a ∈ actions, a.isInternal = true) →
        ∀ q, actions.foldlM (step chain) oneTask = some q → actions.length ≤ n) ∧
      ∀ q, Relation.ReflTransGen (Internal chain) oneTask q → Quiescent chain q → q.AllDone chain ∧
      q.getTasksCount = 0 :=
  rest_done chain_wf (reachable_of_run [.addThread, .addTask 1, .notify] .refl rfl) rfl
    (List.cons_ne_nil _ _)

/-! ## Stop -/

/-- Behind the notification of `NotifyStop`, when no other one is under way and no more tasks are
added. -/
structure Stopping (body : τ → List τ) (p : Pool τ) : Prop where
  stopped : p.stopped = true
  notifying : p.notifying = 0
  tasks : ∀ t ∈ p.tasks, body t = []
  running : ∀ t adds, .running t adds ∈ p.workers → adds = []

/-- The threads that `JoinAll` waits for in vain: those that wait, and those on their way there that
find no task. -/
def Pool.missed (p : Pool τ) : Nat :=
  p.workers.countP Worker.isWaiting + (p.workers.countP Worker.isChecked - p.tasks.length)

/-- A step changes neither that number nor the number of tasks that will be left. -/
theorem Stopping.internal (hp : Stopping body p) (h : Internal body p q) :
    Stopping body q ∧ q.missed = p.missed ∧
      q.tasks.length - q.workers.countP Worker.isChecked =
      p.tasks.length - p.workers.countP Worker.isChecked := by
  obtain ⟨a, hinternal, h⟩ := h
  cases a with
  | turn i =>
    obtain ⟨pre, w, post, w', r, hw, hmove, rfl⟩ := turn_cases h
    have hrunning : ∀ t adds, .running t adds ∈ pre ++ post → adds = [] := by
      intro t adds hmem
      refine hp.running t adds ?_
      rw [hw]
      simp only [List.mem_append, List.mem_cons] at hmem ⊢
      exact hmem.imp_right .inr
    have hrest : (∀ t adds, w' = .running t adds → adds = []) → ∀ t adds,
        .running t adds ∈ pre ++ w' :: post → adds = [] := by
      intro hw' t adds hmem
      simp only [List.mem_append, List.mem_cons] at hmem
      rcases hmem with hmem | heq | hmem
      · exact hrunning t adds (List.mem_append_left _ hmem)
      · exact hw' t adds heq.symm
      · exact hrunning t adds (List.mem_append_right _ hmem)
    unfold Pool.missed
    rw [hw]
    cases hmove with
    | check hrun => exact absurd hp.stopped (by rw [hrun]; exact Bool.false_ne_true)
    | @take t tasks hcons =>
      have hmem : ∀ u ∈ t :: tasks, body u = [] := hcons ▸ hp.tasks
      refine ⟨⟨hp.stopped, hp.notifying, fun u hu => hmem u (List.mem_cons_of_mem _ hu), hrest ?_⟩,
        ?_, ?_⟩
      · intro t' adds heq
        cases heq
        exact hmem t List.mem_cons_self
      · simp [List.countP_append, List.countP_cons, Worker.isWaiting, Worker.isChecked, hcons]
        omega
      · simp [List.countP_append, List.countP_cons, Worker.isChecked, hcons]
        omega
    | @add t u adds =>
      have hmem : .running t (u :: adds) ∈ p.workers := by
        rw [hw]
        exact List.mem_append_right _ List.mem_cons_self
      cases hp.running t _ hmem
    | _ =>
      refine ⟨⟨hp.stopped, hp.notifying, hp.tasks, hrest fun t adds heq => by cases heq⟩, ?_, ?_⟩
      all_goals simp_all [List.countP_append, List.countP_cons, Worker.isWaiting, Worker.isChecked]
      all_goals omega
  | notify =>
    rw [step, if_pos hp.notifying] at h
    cases h
  | _ => cases hinternal

theorem Stopping.run (hp : Stopping body p) (h : Relation.ReflTransGen (Internal body) p q) :
    Stopping body q ∧ q.missed = p.missed ∧
      q.tasks.length - q.workers.countP Worker.isChecked =
      p.tasks.length - p.workers.countP Worker.isChecked := by
  induction h with
  | refl => exact ⟨hp, rfl, rfl⟩
  | tail _ hstep ih =>
    have hnext := ih.1.internal hstep
    exact ⟨hnext.1, hnext.2.1.trans ih.2.1, hnext.2.2.trans ih.2.2⟩

theorem Quiescent.countP_isChecked (h : Quiescent body p) :
    p.workers.countP Worker.isChecked = 0 := by
  rw [List.countP_eq_zero]
  intro w hw
  rcases h.worker hw with rfl | rfl <;> exact Bool.false_ne_true

theorem Quiescent.exited_iff (h : Quiescent body p) :
    (∀ w ∈ p.workers, w = .exited) ↔ p.missed = 0 := by
  rw [Pool.missed, h.countP_isChecked, Nat.zero_sub, Nat.add_zero, List.countP_eq_zero]
  refine forall₂_congr fun w hw => ?_
  rcases h.worker hw with rfl | rfl <;> simp [Worker.isWaiting]

/-- No task adds another one any more. -/
theorem Stopping.step_eq (hp : Stopping body p) (a : Action τ) :
    step body p a = step (fun _ => []) p a := by
  cases a with
  | turn i =>
    have hturn : ∀ w, p.mainLoop body w = p.mainLoop (fun _ => []) w := by
      intro w
      cases w with
      | checked =>
        unfold Pool.mainLoop
        cases htasks : p.tasks with
        | nil => rfl
        | cons t tasks =>
          have hbody : body t = [] := hp.tasks t (htasks ▸ List.mem_cons_self)
          simp only [hbody]
      | running t adds => cases adds <;> rfl
      | _ => rfl
    simp only [step, funext hturn]
  | _ => rfl

theorem Stopping.internal_iff (hp : Stopping body p) :
    Internal body p q ↔ Internal (fun _ => []) p q := by
  unfold Internal
  simp only [hp.step_eq]

/-- A pool that is stopped comes to rest, whatever other tasks would add. -/
theorem Stopping.exists_quiescent (hp : Stopping body p) :
    ∃ q, Relation.ReflTransGen (Internal body) p q ∧ Quiescent body q := by
  have hwf : WellFounded fun u t : τ => u ∈ (fun _ => [] : τ → List τ) t :=
    ⟨fun t => ⟨t, fun u h => absurd h List.not_mem_nil⟩⟩
  obtain ⟨q, hrun, hq⟩ := ThreadPool.exists_quiescent hwf p
  have hboth : Relation.ReflTransGen (Internal body) p q ∧ Stopping body q := by
    clear hq
    induction hrun with
    | refl => exact ⟨.refl, hp⟩
    | tail _ hstep ih =>
      have hsame := ih.2.internal_iff.2 hstep
      exact ⟨ih.1.tail hsame, (ih.2.internal hsame).1⟩
  exact ⟨q, hboth.1, fun r hr => hq r (hboth.2.internal_iff.1 hr)⟩

/-- `JoinAll` behind the notification comes back, in each order of the steps, just when no thread
waits and no more threads are between the flag and the lock than there are tasks. The tasks that
they do not take are dropped. -/
theorem stop_joins_iff (hp : Stopping body p) :
    ((∀ q, Relation.ReflTransGen (Internal body) p q → Quiescent body q →
        (∀ w ∈ q.workers, w = .exited) ∧
        q.tasks.length = p.tasks.length - p.workers.countP Worker.isChecked) ↔
      p.workers.countP Worker.isWaiting = 0 ∧ p.workers.countP Worker.isChecked ≤
      p.tasks.length) := by
  have hmissed : p.missed = 0 ↔ p.workers.countP Worker.isWaiting = 0 ∧
      p.workers.countP Worker.isChecked ≤ p.tasks.length := by
    rw [Pool.missed]
    omega
  rw [← hmissed]
  constructor
  · intro h
    obtain ⟨q, hrun, hq⟩ := hp.exists_quiescent
    rw [← (hp.run hrun).2.1]
    exact hq.exited_iff.1 (h q hrun hq).1
  · intro h q hrun hq
    obtain ⟨-, hsame, htasks⟩ := hp.run hrun
    rw [hq.countP_isChecked, Nat.sub_zero] at htasks
    exact ⟨hq.exited_iff.2 (hsame.trans h), htasks⟩

/-- The thread has seen the flag before `NotifyStop` has set it. -/
def missedStop : Pool Nat := ⟨true, [.checked], [], 0, 0, [], [], []⟩

/-- Such a pool can be reached, and its `Stop` hangs. -/
theorem stop_hangs : Reachable chain missedStop ∧
    ¬ ∀ q, Relation.ReflTransGen (Internal chain) missedStop q → Quiescent chain q →
      (∀ w ∈ q.workers, w = .exited) ∧
      q.tasks.length = missedStop.tasks.length - missedStop.workers.countP Worker.isChecked := by
  refine ⟨reachable_of_run [.addThread, .turn 0, .stop, .notify] .refl rfl, fun h => ?_⟩
  have hp : Stopping chain missedStop :=
    ⟨rfl, rfl, fun _ h => absurd h List.not_mem_nil,
      fun t adds h => by cases List.mem_singleton.1 h⟩
  exact absurd ((stop_joins_iff hp).1 h).2 (by decide)

end Diana.Orthia.ThreadPool
