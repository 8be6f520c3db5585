import Mathlib.Tactic

universe u v w

/-- A fetch-and-execute machine: how an instruction acts, and when the loop stops. -/
structure Interp (Instr : Type u) (State : Type v) (Fault : Type w) where
  pc : State → Nat
  halted : State → Bool
  exec : Instr → State → Except Fault State

namespace Interp

variable {Instr : Type u} {State : Type v} {Fault : Type w}

@[simp] theorem bind_ok {ε α β : Type u} (x : α) (f : α → Except ε β) : (Except.ok x >>= f) = f x := rfl

@[simp] theorem bind_error {ε α β : Type u} (e : ε) (f : α → Except ε β) :
    ((Except.error e : Except ε α) >>= f) = .error e := rfl

/-- At most `ticks` rounds of the loop; it also stops when the counter leaves the program. -/
def run (M : Interp Instr State Fault) (program : List Instr) : Nat → State → Except Fault State
  | 0, s => .ok s
  | ticks + 1, s =>
    if M.halted s then .ok s
    else match program[M.pc s]? with
      | none => .ok s
      | some i => match M.exec i s with
        | .ok t => M.run program ticks t
        | .error e => .error e

def Step (M : Interp Instr State Fault) (program : List Instr) (s t : State) : Prop :=
  M.halted s = false ∧ ∃ i, program[M.pc s]? = some i ∧ M.exec i s = .ok t

def execList (M : Interp Instr State Fault) : List Instr → State → Except Fault State
  | [], s => .ok s
  | i :: is, s => match M.exec i s with
    | .ok t => M.execList is t
    | .error e => .error e

theorem execList_append (M : Interp Instr State Fault) (is js : List Instr) (s : State) :
    M.execList (is ++ js) s = match M.execList is s with
      | .ok t => M.execList js t
      | .error e => .error e := by
  induction is generalizing s with
  | nil => rfl
  | cons i is ih =>
    simp only [List.cons_append, execList]
    cases M.exec i s with
    | ok t => exact ih t
    | error e => rfl

theorem execList_prefix {M : Interp Instr State Fault} {is js : List Instr} {s t : State}
    (h : M.execList (is ++ js) s = .ok t) : ∃ u, M.execList is s = .ok u := by
  rw [execList_append] at h
  cases hu : M.execList is s with
  | ok u => exact ⟨u, rfl⟩
  | error e => simp [hu] at h

def Straight (M : Interp Instr State Fault) (i : Instr) : Prop :=
  ∀ s t, M.exec i s = .ok t → M.pc t = M.pc s + 1 ∧ M.halted t = M.halted s

theorem execList_pc {M : Interp Instr State Fault} {is : List Instr} {s t : State}
    (straight : ∀ i ∈ is, M.Straight i) (h : M.execList is s = .ok t) :
    M.pc t = M.pc s + is.length ∧ M.halted t = M.halted s := by
  induction is generalizing s with
  | nil =>
    cases h
    exact ⟨rfl, rfl⟩
  | cons i is ih =>
    simp only [execList] at h
    split at h
    · next u hu =>
      obtain ⟨hpc, hhalted⟩ := straight i (by simp) s u hu
      obtain ⟨hpc', hhalted'⟩ := ih (fun j hj => straight j (by simp [hj])) h
      exact ⟨by rw [hpc', hpc, List.length_cons]; omega, hhalted'.trans hhalted⟩
    · cases h

/-- Straight code in place runs as the list of its instructions does. -/
theorem run_straight {M : Interp Instr State Fault} {pre code post : List Instr} {s : State}
    (straight : ∀ i ∈ code, M.Straight i) (hpc : M.pc s = pre.length)
    (hhalted : M.halted s = false) (ticks : Nat) :
    M.run (pre ++ code ++ post) (code.length + ticks) s = match M.execList code s with
      | .ok t => M.run (pre ++ code ++ post) ticks t
      | .error e => .error e := by
  induction code generalizing pre s with
  | nil => simp [execList]
  | cons i code ih =>
    have fetch : (pre ++ i :: code ++ post)[M.pc s]? = some i := by simp [hpc]
    rw [List.length_cons, Nat.add_right_comm, run, if_neg (by simp [hhalted]), fetch]
    simp only [execList]
    cases hi : M.exec i s with
    | error e => rfl
    | ok t =>
      obtain ⟨hpc', hhalted'⟩ := straight i (by simp) s t hi
      have hpc'' : M.pc t = (pre ++ [i]).length := by simp [hpc', hpc]
      have step := ih (fun j hj => straight j (by simp [hj])) hpc'' (hhalted'.trans hhalted)
      simpa using step

theorem run_error_add {M : Interp Instr State Fault} {program : List Instr} {e : Fault}
    (ticks more : Nat) {s : State} (h : M.run program ticks s = .error e) :
    M.run program (ticks + more) s = .error e := by
  induction ticks generalizing s with
  | zero => cases h
  | succ ticks ih =>
    rw [Nat.add_right_comm, run]
    rw [run] at h
    split at h
    · cases h
    · next hhalted =>
      rw [if_neg hhalted]
      split at h
      · cases h
      · next i hi =>
        split at h
        · exact ih h
        · exact h

theorem run_straight_program {M : Interp Instr State Fault} {program : List Instr} {s : State}
    (straight : ∀ i ∈ program, M.Straight i) (hpc : M.pc s = 0) (hhalted : M.halted s = false)
    {ticks : Nat} (hticks : program.length ≤ ticks) :
    M.run program ticks s = M.execList program s := by
  obtain ⟨extra, rfl⟩ := Nat.exists_eq_add_of_le hticks
  have h : M.run ([] ++ program ++ []) (program.length + extra) s = _ :=
    run_straight straight hpc hhalted extra
  simp only [List.nil_append, List.append_nil] at h
  rw [h]
  cases ht : M.execList program s with
  | error e => rfl
  | ok t =>
    obtain ⟨hpc', hhalted'⟩ := execList_pc straight ht
    cases extra with
    | zero => rfl
    | succ extra => simp [run, hhalted', hhalted, hpc', hpc]

theorem run_straight_take {M : Interp Instr State Fault} {program : List Instr} {s : State}
    (straight : ∀ i ∈ program, M.Straight i) (hpc : M.pc s = 0) (hhalted : M.halted s = false)
    {ticks : Nat} (hticks : ticks ≤ program.length) :
    M.run program ticks s = M.execList (program.take ticks) s := by
  have length : (program.take ticks).length = ticks := by simp [hticks]
  have straight' : ∀ i ∈ program.take ticks, M.Straight i :=
    fun i hi => straight i (List.mem_of_mem_take hi)
  have h : M.run ([] ++ program.take ticks ++ program.drop ticks)
      ((program.take ticks).length + 0) s = _ := run_straight straight' hpc hhalted 0
  rw [List.nil_append, List.take_append_drop, length, Nat.add_zero] at h
  rw [h]
  cases M.execList (program.take ticks) s <;> rfl

theorem run_straight_any {M : Interp Instr State Fault} {program : List Instr} {s : State}
    (straight : ∀ i ∈ program, M.Straight i) (hpc : M.pc s = 0) (hhalted : M.halted s = false) (ticks : Nat) :
    M.run program ticks s = M.execList (program.take ticks) s := by
  rcases Nat.le_total ticks program.length with few | enough
  · exact run_straight_take straight hpc hhalted few
  · rw [run_straight_program straight hpc hhalted enough, List.take_of_length_le enough]

theorem run_stopped {M : Interp Instr State Fault} {program : List Instr} {s : State}
    (stopped : M.halted s = true ∨ program[M.pc s]? = none) (ticks : Nat) : M.run program ticks s = .ok s := by
  cases ticks with
  | zero => rfl
  | succ ticks =>
    rw [run]
    split
    · rfl
    · next moving =>
      rcases stopped with halted | off
      · exact absurd halted moving
      · rw [off]

theorem run_add (M : Interp Instr State Fault) (program : List Instr) (ticks more : Nat) (s : State) :
    M.run program (ticks + more) s = M.run program ticks s >>= M.run program more := by
  induction ticks generalizing s with
  | zero => exact congrArg (M.run program · s) (Nat.zero_add more)
  | succ ticks ih =>
    by_cases halted : M.halted s = true
    · rw [run_stopped (.inl halted), run_stopped (.inl halted)]
      exact (run_stopped (.inl halted) more).symm
    · cases fetched : program[M.pc s]? with
      | none =>
        rw [run_stopped (.inr fetched), run_stopped (.inr fetched)]
        exact (run_stopped (.inr fetched) more).symm
      | some i =>
        rw [Nat.add_right_comm, run, run, if_neg halted, if_neg halted, fetched]
        simp only
        cases M.exec i s with
        | ok t => exact ih t
        | error e => rfl

def runSlices (M : Interp Instr State Fault) (program : List Instr) : List Nat → State → Except Fault State
  | [], s => .ok s
  | ticks :: slices, s => M.run program ticks s >>= M.runSlices program slices

theorem runSlices_eq (M : Interp Instr State Fault) (program : List Instr) (slices : List Nat) (s : State) :
    M.runSlices program slices s = M.run program slices.sum s := by
  induction slices generalizing s with
  | nil => rfl
  | cons ticks slices ih =>
    rw [runSlices, List.sum_cons, run_add]
    exact congrArg _ (funext ih)

/-- Two machines on one program that stay related while the first goes on.  The second may fail alone, in
one way. -/
theorem run_follows {State' : Type v} {M : Interp Instr State Fault} {M' : Interp Instr State' Fault}
    {R : State → State' → Prop} {e : Fault} (sync : ∀ s t, R s t → M'.pc t = M.pc s ∧ M'.halted t = M.halted s)
    (step : ∀ i s t u, R s t → M.exec i s = .ok u → M.halted u = true ∨ (∃ v, M'.exec i t = .ok v ∧ R u v) ∨
      M'.exec i t = .error e)
    {program : List Instr} {ticks : Nat} {s u : State} {t : State'} (related : R s t)
    (run : M.run program ticks s = .ok u) (going : M.halted u = false) :
    (∃ v, M'.run program ticks t = .ok v ∧ R u v) ∨ M'.run program ticks t = .error e := by
  induction ticks generalizing s t with
  | zero =>
    cases run
    exact .inl ⟨t, rfl, related⟩
  | succ ticks ih =>
    obtain ⟨pc, halted⟩ := sync s t related
    rw [Interp.run] at run ⊢
    rw [pc, halted]
    split at run
    · next stopped =>
      cases run
      rw [stopped] at going
      cases going
    · next moving =>
      rw [if_neg moving]
      cases fetched : program[M.pc s]? with
      | none =>
        rw [fetched] at run
        cases run
        exact .inl ⟨t, rfl, related⟩
      | some i =>
        rw [fetched] at run
        cases done : M.exec i s with
        | error e => simp [done] at run
        | ok s' =>
          simp only [done] at run
          rcases step i s t s' related done with stopped | ⟨t', done', related'⟩ | failed
          · have stays : M.run program ticks s' = .ok s' := by
              cases ticks with
              | zero => rfl
              | succ ticks => rw [Interp.run, if_pos stopped]
            cases run.symm.trans stays
            rw [stopped] at going
            cases going
          · simp only [done']
            exact ih related' run
          · right
            simp only [failed]

end Interp
