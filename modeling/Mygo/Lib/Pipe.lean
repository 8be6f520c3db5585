import Mathlib.Data.List.Infix

universe u

structure Pipe (α : Type u) where
  taken : List α
  flight : List α

namespace Pipe

variable {α : Type u} {p p' : Pipe α} {xs chunk : List α}

def empty : Pipe α := ⟨[], []⟩

def sent (p : Pipe α) : List α := p.taken ++ p.flight

def write (xs : List α) (p : Pipe α) : Pipe α := ⟨p.taken, p.flight ++ xs⟩

/-- `none` where the chunk is not what comes next. -/
def read [DecidableEq α] (chunk : List α) (p : Pipe α) : Option (Pipe α) :=
  if chunk <+: p.flight then some ⟨p.taken ++ chunk, p.flight.drop chunk.length⟩ else none

@[simp] theorem sent_empty : (empty : Pipe α).sent = [] := rfl

@[simp] theorem taken_write : (p.write xs).taken = p.taken := rfl

@[simp] theorem sent_write : (p.write xs).sent = p.sent ++ xs :=
  (List.append_assoc p.taken p.flight xs).symm

section Read

variable [DecidableEq α]

theorem read_cases (h : p.read chunk = some p') :
    ∃ rest, p.flight = chunk ++ rest ∧ p' = ⟨p.taken ++ chunk, rest⟩ := by
  rw [read] at h
  split at h
  · next next_ =>
    obtain ⟨rest, flight⟩ := next_
    cases h
    refine ⟨rest, flight.symm, ?_⟩
    rw [← flight, List.drop_left]
  · cases h

theorem sent_read (h : p.read chunk = some p') : p'.sent = p.sent := by
  obtain ⟨rest, flight, rfl⟩ := read_cases h
  rw [sent, sent, flight, List.append_assoc]

theorem infix_of_read (h : p.read chunk = some p') : chunk <:+: p.sent := by
  obtain ⟨rest, flight, -⟩ := read_cases h
  refine ⟨p.taken, rest, ?_⟩
  rw [sent, flight, List.append_assoc]

theorem prefix_of_read (first : p.taken = []) (h : p.read chunk = some p') : chunk <+: p.sent := by
  obtain ⟨rest, flight, -⟩ := read_cases h
  refine ⟨rest, ?_⟩
  rw [sent, first, flight, List.nil_append]

end Read

end Pipe
