import Mygo.Lib.Trace
import Mygo.Loop.Lifetime

namespace Mygo

def MiliSec : Nat := 1000000

theorem toNat_signExtend (d : Nat) : ((BitVec.ofNat 32 d).signExtend 64).toNat =
    d % 2 ^ 32 + if 2 ^ 31 ≤ d % 2 ^ 32 then 2 ^ 64 - 2 ^ 32 else 0 := by
  have low : d % 2 ^ 32 < 2 ^ 64 := (Nat.mod_lt d (by decide)).trans (by decide)
  rw [BitVec.toNat_signExtend, BitVec.msb_eq_decide, BitVec.toNat_setWidth, BitVec.toNat_ofNat,
    Nat.mod_eq_of_lt low]
  simp only [decide_eq_true_eq]

/-- A duration that is the same after it has been an `int`. -/
def TimerTask.Survives (d : Nat) : Prop := d < 2 ^ 31 ∨ 2 ^ 64 - 2 ^ 31 ≤ d

theorem TimerTask.millis_eq_iff {d : Nat} (range : d < 2 ^ 64) :
    TimerTask.millis d = d / MiliSec ↔ TimerTask.Survives d := by
  rw [TimerTask.millis, toNat_signExtend, MiliSec, TimerTask.Survives]
  have parts := Nat.div_add_mod d (2 ^ 32)
  have high : d / 2 ^ 32 < 2 ^ 32 := Nat.div_lt_of_lt_mul range
  split
  · next negative =>
    constructor
    · intro same
      right
      omega
    · rintro (small | large)
      · omega
      · congr 1
        omega
  · next positive =>
    constructor
    · intro same
      left
      omega
    · rintro (small | large)
      · congr 1
        omega
      · omega

namespace Timer

inductive Event
  | run
  | timer_cb

structure World where
  task : TimerTask
  starts : List (Nat × Nat)

def init (again : Bool) (d : Nat) : World := ⟨.init again d, []⟩

def started (requests : List TimerRequest) : List (Nat × Nat) :=
  requests.filterMap fun
    | .uv_timer_start timeout again => some (timeout, again)
    | .func_ => none

def step (w : World) : Event → Option World
  | .run => w.task.run.map fun (task, requests) => ⟨task, w.starts ++ started requests⟩
  | .timer_cb =>
    if w.starts = [] then none else some { w with task := { w.task with timeout_ := true } }

/-- The runs of a task start its timer once, with the period that was asked for. -/
def Armed (again : Bool) (d : Nat) : Prop :=
  ∀ events w, Trace.follow step (init again d) events = some w → .run ∈ events →
    w.starts = [(d / MiliSec, d / MiliSec)]

inductive Phase (again : Bool) (d : Nat) : List Event → World → Prop
  | posted : Phase again d [] (init again d)
  | running : w.task.state_.isS0 = false → w.starts = [(TimerTask.millis d, TimerTask.millis d)] →
    Phase again d events w

variable {again : Bool} {d : Nat} {events : List Event} {w w' : World} {e : Event}

theorem run_started {s s' : TimerTask} {requests : List TimerRequest} (later : s.state_.isS0 = false)
    (ran : s.run = some (s', requests)) : s'.state_.isS0 = false ∧ started requests = [] := by
  rw [TimerTask.run, if_neg (by simp [later])] at ran
  split at ran
  · cases ran
    exact ⟨later, rfl⟩
  · split at ran
    · split at ran
      · cases ran
        exact ⟨later, rfl⟩
      · cases ran
        exact ⟨rfl, rfl⟩
    · cases ran
      exact ⟨later, rfl⟩

theorem Phase.step (h : Phase again d events w) (he : step w e = some w') : Phase again d (events ++ [e]) w' := by
  cases h with
  | posted =>
    cases e with
    | run =>
      cases he
      exact .running rfl rfl
    | timer_cb => cases he
  | running later starts =>
    cases e with
    | run =>
      obtain ⟨⟨task, requests⟩, ran, rfl⟩ := Option.map_eq_some_iff.mp he
      obtain ⟨later', none⟩ := run_started later ran
      refine .running later' ?_
      change w.starts ++ started requests = _
      rw [none, List.append_nil, starts]
    | timer_cb =>
      rw [Timer.step, if_neg (by simp [starts])] at he
      cases he
      exact .running later starts

theorem phase (h : Trace.follow step (init again d) events = some w) : Phase again d events w :=
  Trace.follow_induction (P := Phase again d) .posted (fun _ _ _ _ _ ih he => ih.step he) h

theorem armed_iff_millis : Armed again d ↔ TimerTask.millis d = d / MiliSec := by
  constructor
  · intro armed
    have starts := armed [.run] _ rfl (List.mem_singleton.mpr rfl)
    exact congrArg Prod.fst (List.head_eq_of_cons_eq starts)
  · intro same events w reached ran
    cases phase reached with
    | posted => cases ran
    | running _ starts => rw [starts, same]

def Ordered (again again' : Bool) (d d' : Nat) : Prop :=
  ∀ events w events' w', Trace.follow step (init again d) events = some w →
    Trace.follow step (init again' d') events' = some w' →
      ∀ start ∈ w.starts, ∀ start' ∈ w'.starts, start.1 ≤ start'.1 ∧ start.2 ≤ start'.2

theorem mem_starts (h : Trace.follow step (init again d) events = some w) {start : Nat × Nat}
    (member : start ∈ w.starts) : start = (TimerTask.millis d, TimerTask.millis d) := by
  cases phase h with
  | posted => cases member
  | running _ starts =>
    rw [starts] at member
    exact List.mem_singleton.mp member

/-- The timer of a task is started with the requested period exactly when the duration is the same
after it has been an `int`, and the periods of such durations are in their order. -/
theorem armed_iff (again again' : Bool) (d d' : UInt64) :
    (Armed again d.toNat ↔ TimerTask.Survives d.toNat) ∧
      (d ≤ d' → TimerTask.Survives d.toNat → TimerTask.Survives d'.toNat →
        Ordered again again' d.toNat d'.toNat) := by
  refine ⟨armed_iff_millis.trans (TimerTask.millis_eq_iff d.toNat_lt), ?_⟩
  intro le survives survives' events w events' w' reached reached' start member start' member'
  have order : TimerTask.millis d.toNat ≤ TimerTask.millis d'.toNat := by
    rw [(TimerTask.millis_eq_iff d.toNat_lt).mpr survives, (TimerTask.millis_eq_iff d'.toNat_lt).mpr survives']
    exact Nat.div_le_div_right le
  rw [mem_starts reached member, mem_starts reached' member']
  exact ⟨order, order⟩

/-- Two and a half seconds are armed as 18446744071914 milliseconds and so are longer than five. -/
theorem seconds_lost :
    ¬ Armed false 2500000000 ∧ ¬ Armed true 2500000000 ∧ ¬ Ordered true true 2500000000 5000000000 := by
  refine ⟨?_, ?_, ?_⟩
  · exact fun armed => absurd (armed [.run] _ rfl (List.mem_singleton.mpr rfl)) (by decide)
  · exact fun armed => absurd (armed [.run] _ rfl (List.mem_singleton.mpr rfl)) (by decide)
  · intro ordered
    have order := ordered [.run] _ [.run] _ rfl rfl _ (List.mem_singleton.mpr rfl) _ (List.mem_singleton.mpr rfl)
    exact absurd order (by decide)

end Timer

end Mygo
