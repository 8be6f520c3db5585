import Mathlib.Data.List.Basic

universe u v

namespace DefUse

variable {Instr : Type u} {Cell : Type v}

def ReadsWritten (reads writes : Instr → List Cell) (code : List Instr) : Prop :=
  ∀ before i after, code = before ++ i :: after → ∀ cell ∈ reads i, ∃ i' ∈ before, cell ∈ writes i'

variable [DecidableEq Cell] {reads writes : Instr → List Cell} {code code' : List Instr} {i : Instr}
  {written : List Cell}

def read (cells written : List Cell) : Option (List Cell) :=
  if ∀ cell ∈ cells, cell ∈ written then some written else none

/-- The cells that are written in the end, as long as no other one is read. -/
def track (reads writes : Instr → List Cell) : List Instr → List Cell → Option (List Cell)
  | [], written => some written
  | i :: code, written =>
    (read (reads i) written).bind fun written => track reads writes code (written ++ writes i)

theorem track_append : track reads writes (code ++ code') written =
    (track reads writes code written).bind (track reads writes code') := by
  induction code generalizing written with
  | nil => rfl
  | cons i code ih =>
    rw [List.cons_append, track, track, Option.bind_assoc]
    exact Option.bind_congr fun written _ => ih

theorem track_single :
    track reads writes [i] written = (read (reads i) written).map fun written => written ++ writes i := by
  rw [track, Option.map_eq_bind]
  rfl

@[simp] theorem read_nil : read [] written = some written := if_pos nofun

theorem read_append (cells cells' : List Cell) :
    read (cells ++ cells') written = (read cells written).bind (read cells') := by
  unfold read
  by_cases first : ∀ cell ∈ cells, cell ∈ written
  · rw [if_pos first, Option.bind_some]
    by_cases rest : ∀ cell ∈ cells', cell ∈ written
    · rw [if_pos rest, if_pos (List.forall_mem_append.mpr ⟨first, rest⟩)]
    · rw [if_neg rest, if_neg fun all => rest (List.forall_mem_append.mp all).2]
  · rw [if_neg first, if_neg fun all => first (List.forall_mem_append.mp all).1]
    rfl

theorem track_isSome : (track reads writes code written).isSome ↔
    ∀ before i after, code = before ++ i :: after →
      ∀ cell ∈ reads i, cell ∈ written ∨ ∃ i' ∈ before, cell ∈ writes i' := by
  induction code generalizing written with
  | nil => simp [track]
  | cons i code ih =>
    rw [track, read]
    split
    · next all =>
      rw [Option.bind_some, ih]
      constructor
      · intro rest before j after split' cell read
        cases before with
        | nil =>
          obtain ⟨rfl, rfl⟩ := List.cons.inj split'
          exact .inl (all cell read)
        | cons i' before =>
          obtain ⟨rfl, rfl⟩ := List.cons.inj split'
          rcases rest before j after rfl cell read with known | ⟨i', earlier, wrote⟩
          · exact (List.mem_append.mp known).imp_right fun wrote => ⟨i, .head _, wrote⟩
          · exact .inr ⟨i', .tail _ earlier, wrote⟩
      · intro rest before j after split' cell read
        rcases rest (i :: before) j after (congrArg (i :: ·) split') cell read with known | ⟨i', earlier, wrote⟩
        · exact .inl (List.mem_append_left _ known)
        · rcases List.mem_cons.mp earlier with rfl | earlier
          · exact .inl (List.mem_append_right _ wrote)
          · exact .inr ⟨i', earlier, wrote⟩
    · next missing =>
      refine iff_of_false nofun fun rest => missing fun cell read => ?_
      exact (rest [] i code rfl cell read).resolve_right nofun

theorem readsWritten_iff : ReadsWritten reads writes code ↔ (track reads writes code []).isSome := by
  rw [track_isSome]
  simp only [ReadsWritten, List.not_mem_nil, false_or]

end DefUse
