import Mygo.Lib.Parse

universe u v

namespace Parse

variable {σ ε α : Type u} {τ δ β : Type v}

def Agrees (R : σ → τ → Prop) (E : ε → δ → Prop) (V : α → β → Prop) : Parse σ ε α → Parse τ δ β → Prop
  | .ok a s, .ok b t => V a b ∧ R s t
  | .err e s, .err d t => E e d ∧ R s t
  | .abort, .abort => True
  | .out_of_fuel, .out_of_fuel => True
  | _, _ => False

variable {R : σ → τ → Prop} {E : ε → δ → Prop} {V : α → β → Prop} {s : σ} {t : τ}

theorem Agrees.ok_left {r : Parse τ δ β} {a : α} (h : Agrees R E V (.ok a s) r) :
    ∃ b t, r = .ok b t ∧ V a b ∧ R s t := by
  cases r with
  | ok b t => exact ⟨b, t, rfl, h⟩
  | err | abort | out_of_fuel => exact h.elim

theorem Agrees.ok_right {r : Parse σ ε α} {b : β} (h : Agrees R E V r (.ok b t)) :
    ∃ a s, r = .ok a s ∧ V a b ∧ R s t := by
  cases r with
  | ok a s => exact ⟨a, s, rfl, h⟩
  | err | abort | out_of_fuel => exact h.elim

theorem Agrees.cases {r : Parse σ ε α} {r' : Parse τ δ β} (h : Agrees R E V r r') :
    (∃ a s b t, r = .ok a s ∧ r' = .ok b t ∧ V a b ∧ R s t) ∨
    (∃ e s d t, r = .err e s ∧ r' = .err d t ∧ E e d ∧ R s t) ∨
    r = .abort ∧ r' = .abort ∨ r = .out_of_fuel ∧ r' = .out_of_fuel := by
  cases r with
  | ok a s =>
    obtain ⟨b, t, rfl, value, related⟩ := h.ok_left
    exact .inl ⟨a, s, b, t, rfl, rfl, value, related⟩
  | err e s =>
    cases r' with
    | err d t => exact .inr (.inl ⟨e, s, d, t, rfl, rfl, h⟩)
    | ok | abort | out_of_fuel => exact h.elim
  | abort =>
    cases r' with
    | abort => exact .inr (.inr (.inl ⟨rfl, rfl⟩))
    | ok | err | out_of_fuel => exact h.elim
  | out_of_fuel =>
    cases r' with
    | out_of_fuel => exact .inr (.inr (.inr ⟨rfl, rfl⟩))
    | ok | err | abort => exact h.elim

end Parse

namespace Parser

variable {σ ε α α' : Type u} {τ δ β β' : Type v}

def Simulates (R : σ → τ → Prop) (E : ε → δ → Prop) (V : α → β → Prop) (p : Parser σ ε α)
    (q : Parser τ δ β) : Prop :=
  ∀ s t, R s t → (p s).Agrees R E V (q t)

def Attempts (E : ε → δ → Prop) (V : α → β → Prop) : Except ε α → Except δ β → Prop
  | .ok a, .ok b => V a b
  | .error e, .error d => E e d
  | _, _ => False

namespace Simulates

variable {R : σ → τ → Prop} {E : ε → δ → Prop} {V : α → β → Prop} {W : α' → β' → Prop}
variable {p : Parser σ ε α} {q : Parser τ δ β} {f : α → Parser σ ε α'} {g : β → Parser τ δ β'}

theorem pure {a : α} {b : β} (h : V a b) : Simulates R E V (pure a) (pure b) := fun _ _ related => ⟨h, related⟩

theorem raise {e : ε} {d : δ} (h : E e d) : Simulates R E V (raise e) (raise d) := fun _ _ related => ⟨h, related⟩

theorem crash : Simulates R E V crash crash := fun _ _ _ => trivial

theorem spent : Simulates R E V spent spent := fun _ _ _ => trivial

theorem read {k : σ → α} {l : τ → β} (h : ∀ s t, R s t → V (k s) (l t)) : Simulates R E V (read k) (read l) :=
  fun s t related => ⟨h s t related, related⟩

theorem bind (hp : Simulates R E V p q) (hf : ∀ a b, V a b → Simulates R E W (f a) (g b)) :
    Simulates R E W (p >>= f) (q >>= g) := by
  intro s t related
  rw [run_bind, run_bind]
  rcases (hp s t related).cases with ⟨a, s', b, t', left, right, value, related'⟩ |
    ⟨e, s', d, t', left, right, both⟩ | ⟨left, right⟩ | ⟨left, right⟩
  · rw [left, right]
    exact hf a b value s' t' related'
  · rw [left, right]
    exact both
  · rw [left, right]
    trivial
  · rw [left, right]
    trivial

theorem attempt (hp : Simulates R E V p q) : Simulates R E (Attempts E V) (attempt p) (attempt q) := by
  intro s t related
  rw [Parser.attempt, Parser.attempt]
  rcases (hp s t related).cases with ⟨a, s', b, t', left, right, both⟩ | ⟨e, s', d, t', left, right, both⟩ |
    ⟨left, right⟩ | ⟨left, right⟩
  · rw [left, right]
    exact both
  · rw [left, right]
    exact both
  · rw [left, right]
    trivial
  · rw [left, right]
    trivial

theorem attempt_bind {f : Except ε α → Parser σ ε α'} {g : Except δ β → Parser τ δ β'} (hp : Simulates R E V p q)
    (ok : ∀ a b, V a b → Simulates R E W (f (.ok a)) (g (.ok b)))
    (err : ∀ e d, E e d → Simulates R E W (f (.error e)) (g (.error d))) :
    Simulates R E W (Parser.attempt p >>= f) (Parser.attempt q >>= g) := by
  refine hp.attempt.bind fun r r' results => ?_
  cases r with
  | ok a =>
    cases r' with
    | ok b => exact ok a b results
    | error d => exact results.elim
  | error e =>
    cases r' with
    | ok b => exact results.elim
    | error d => exact err e d results

theorem guarded {reload : σ → σ → σ} {reload' : τ → τ → τ}
    (loads : ∀ s t s' t', R s t → R s' t' → R (reload s s') (reload' t t')) (hp : Simulates R E V p q) :
    Simulates R E V (guarded reload p) (guarded reload' q) := by
  intro s t related
  rw [Parser.guarded, Parser.guarded]
  rcases (hp s t related).cases with ⟨a, s', b, t', left, right, both⟩ |
    ⟨e, s', d, t', left, right, error, related'⟩ | ⟨left, right⟩ | ⟨left, right⟩
  · rw [left, right]
    exact both
  · rw [left, right]
    exact ⟨error, loads s' t' s t related' related⟩
  · rw [left, right]
    trivial
  · rw [left, right]
    trivial

theorem map {k : α → α'} {l : β → β'} (hp : Simulates R E V p q) (h : ∀ a b, V a b → W (k a) (l b)) :
    Simulates R E W (k <$> p) (l <$> q) :=
  hp.bind fun a b value => .pure (h a b value)

theorem cond {c c' : Prop} [Decidable c] [Decidable c'] {p' : Parser σ ε α} {q' : Parser τ δ β} (same : c ↔ c')
    (yes : c → Simulates R E V p q) (no : ¬ c → Simulates R E V p' q') :
    Simulates R E V (if c then p else p') (if c' then q else q') := by
  by_cases holds : c
  · rw [if_pos holds, if_pos (same.mp holds)]
    exact yes holds
  · rw [if_neg holds, if_neg fun other => holds (same.mpr other)]
    exact no holds

end Simulates

end Parser
