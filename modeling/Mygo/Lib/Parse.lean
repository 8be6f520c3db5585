import Mathlib.Tactic

/-! Recursive descent parsers over a mutable stream: a run yields a value, an error, a crash or
runs out of its bound. -/

universe u

inductive Parse (σ ε α : Type u)
  | ok (a : α) (s : σ)
  | err (e : ε) (s : σ)
  | abort
  | out_of_fuel

def Parse.value {σ ε α : Type u} : Parse σ ε α → Option α
  | .ok a _ => some a
  | _ => none

theorem Parse.ok_of_value {σ ε α : Type u} {r : Parse σ ε α} {a : α} (h : r.value = some a) :
    ∃ s, r = .ok a s := by
  cases r with
  | ok b s =>
    cases h
    exact ⟨s, rfl⟩
  | err | abort | out_of_fuel => cases h

abbrev Parser (σ ε α : Type u) := σ → Parse σ ε α

namespace Parser

variable {σ ε α β : Type u}

instance : Monad (Parser σ ε) where
  pure a := fun s => .ok a s
  bind p f := fun s =>
    match p s with
    | .ok a s => f a s
    | .err e s => .err e s
    | .abort => .abort
    | .out_of_fuel => .out_of_fuel

def attempt (p : Parser σ ε α) : Parser σ ε (Except ε α) := fun s =>
  match p s with
  | .ok a s => .ok (.ok a) s
  | .err e s => .ok (.error e) s
  | .abort => .abort
  | .out_of_fuel => .out_of_fuel

def raise (e : ε) : Parser σ ε α := fun s => .err e s

def crash : Parser σ ε α := fun _ => .abort

def spent : Parser σ ε α := fun _ => .out_of_fuel

def read (f : σ → α) : Parser σ ε α := fun s => .ok (f s) s

def modify (f : σ → σ) : Parser σ ε PUnit := fun s => .ok ⟨⟩ (f s)

/-- Undo what an unsuccessful parser did to the stream. -/
def guarded (reload : σ → σ → σ) (p : Parser σ ε α) : Parser σ ε α := fun s =>
  match p s with
  | .err e t => .err e (reload t s)
  | r => r

variable {p : Parser σ ε α} {f : α → Parser σ ε β} {s t : σ}

@[simp] theorem run_pure (a : α) (s : σ) : (pure a : Parser σ ε α) s = .ok a s := rfl

theorem run_bind (p : Parser σ ε α) (f : α → Parser σ ε β) (s : σ) :
    (p >>= f) s = match p s with
      | .ok a s => f a s
      | .err e s => .err e s
      | .abort => .abort
      | .out_of_fuel => .out_of_fuel := rfl

theorem run_bind_pure (p : Parser σ ε α) (s : σ) : (p >>= pure) s = p s := by
  rw [run_bind]
  cases p s with
  | ok | err | abort | out_of_fuel => rfl

theorem bind_ok {a : α} (h : p s = .ok a t) : (p >>= f) s = f a t := by
  rw [run_bind, h]

theorem bind_err {e : ε} (h : p s = .err e t) : (p >>= f) s = .err e t := by
  rw [run_bind, h]

theorem bind_abort (h : p s = .abort) : (p >>= f) s = .abort := by
  rw [run_bind, h]

theorem attempt_ok {a : α} (h : p s = .ok a t) : attempt p s = .ok (.ok a) t := by
  rw [attempt, h]

theorem attempt_err {e : ε} (h : p s = .err e t) : attempt p s = .ok (.error e) t := by
  rw [attempt, h]

theorem guarded_ok {reload : σ → σ → σ} {a : α} (h : p s = .ok a t) :
    guarded reload p s = .ok a t := by
  rw [guarded, h]

theorem guarded_err {reload : σ → σ → σ} {e : ε} (h : p s = .err e t) :
    guarded reload p s = .err e (reload t s) := by
  rw [guarded, h]

theorem map_ok {g : α → β} {a : α} (h : p s = .ok a t) : (g <$> p) s = .ok (g a) t :=
  bind_ok h

theorem map_err {g : α → β} {e : ε} (h : p s = .err e t) : (g <$> p) s = .err e t :=
  bind_err h

end Parser
