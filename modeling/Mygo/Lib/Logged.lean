import Mygo.Lib.Descent

universe u

abbrev Logged (σ ε ω α : Type u) := σ → List ω × Parse σ ε α

namespace Logged

variable {σ ε ω α β : Type u}

def plain (p : Logged σ ε ω α) : Parser σ ε α := fun s => (p s).2

instance : Monad (Logged σ ε ω) where
  pure a := fun s => ([], .ok a s)
  bind p f := fun s =>
    match p s with
    | (log, .ok a s) => (log ++ (f a s).1, (f a s).2)
    | (log, .err e s) => (log, .err e s)
    | (log, .abort) => (log, .abort)
    | (log, .out_of_fuel) => (log, .out_of_fuel)

def quiet (p : Parser σ ε α) : Logged σ ε ω α := fun s => ([], p s)

def opening (x : σ → ω) (p : Logged σ ε ω α) : Logged σ ε ω α := fun s => (x s :: (p s).1, (p s).2)

def closing (x : Parse σ ε α → List ω) (p : Logged σ ε ω α) : Logged σ ε ω α := fun s =>
  ((p s).1 ++ x (p s).2, (p s).2)

def attempt (p : Logged σ ε ω α) : Logged σ ε ω (Except ε α) := fun s => ((p s).1, Parser.attempt p.plain s)

def guarded (reload : σ → σ → σ) (p : Logged σ ε ω α) : Logged σ ε ω α := fun s =>
  ((p s).1, Parser.guarded reload p.plain s)

theorem run_bind (p : Logged σ ε ω α) (f : α → Logged σ ε ω β) (s : σ) :
    (p >>= f) s = match p s with
      | (log, .ok a s) => (log ++ (f a s).1, (f a s).2)
      | (log, .err e s) => (log, .err e s)
      | (log, .abort) => (log, .abort)
      | (log, .out_of_fuel) => (log, .out_of_fuel) := rfl

theorem mem_bind {p : Logged σ ε ω α} {f : α → Logged σ ε ω β} {s : σ} {x : ω} (h : x ∈ (p s).1) :
    x ∈ ((p >>= f) s).1 := by
  rw [run_bind]
  split <;> simp_all

@[simp] theorem plain_pure (a : α) : (pure a : Logged σ ε ω α).plain = pure a := rfl

@[simp] theorem plain_quiet (p : Parser σ ε α) : (quiet p : Logged σ ε ω α).plain = p := rfl

@[simp] theorem plain_opening (x : σ → ω) (p : Logged σ ε ω α) : (p.opening x).plain = p.plain := rfl

@[simp] theorem plain_closing (x : Parse σ ε α → List ω) (p : Logged σ ε ω α) :
    (p.closing x).plain = p.plain := rfl

@[simp] theorem plain_attempt (p : Logged σ ε ω α) : p.attempt.plain = Parser.attempt p.plain := rfl

@[simp] theorem plain_guarded (reload : σ → σ → σ) (p : Logged σ ε ω α) :
    (p.guarded reload).plain = Parser.guarded reload p.plain := rfl

@[simp] theorem plain_bind (p : Logged σ ε ω α) (f : α → Logged σ ε ω β) :
    (p >>= f).plain = p.plain >>= fun a => (f a).plain := by
  funext s
  rw [Parser.run_bind, plain, run_bind]
  split <;> simp_all [plain]

end Logged
