import Mygo.Lib.Descent

universe u

def Parse.error {σ ε α : Type u} : Parse σ ε α → Option ε
  | .err e _ => some e
  | _ => none

theorem Parse.Meets.and {σ ε α : Type u} {Q Q' : α → σ → Prop} {E E' : ε → σ → Prop} {A F : Prop}
    {r : Parse σ ε α} (h : r.Meets Q E A F) (h' : r.Meets Q' E' A F) :
    r.Meets (fun a s => Q a s ∧ Q' a s) (fun e s => E e s ∧ E' e s) A F := by
  cases r with
  | ok | err => exact ⟨h, h'⟩
  | abort | out_of_fuel => exact h

/-- The positions of valid streams.  What is known of an error behind a position is known behind every earlier
one. -/
structure Track (σ ε : Type u) where
  valid : σ → Prop
  pos : σ → Nat
  known : Nat → ε → Prop
  earlier : ∀ {m n e}, m ≤ n → known n e → known m e

namespace Track

open Parser

variable {σ ε α β : Type u} {T : Track σ ε}

def From (T : Track σ ε) (s : σ) (r : Parse σ ε α) : Prop :=
  r.Meets (fun _ t => T.valid t ∧ T.pos s ≤ T.pos t) (fun e t => T.valid t ∧ T.known (T.pos s) e) True True

def Forward (T : Track σ ε) (p : Parser σ ε α) : Prop := ∀ s, T.valid s → T.From s (p s)

/-- An error leaves the stream where the parser began. -/
def Returns (T : Track σ ε) (p : Parser σ ε α) : Prop := ∀ s, T.valid s →
  (p s).Meets (fun _ t => T.valid t ∧ T.pos s ≤ T.pos t)
    (fun e t => T.valid t ∧ T.pos t = T.pos s ∧ T.known (T.pos s) e) True True

variable {p : Parser σ ε α} {f : α → Parser σ ε β} {s t : σ}

theorem From.later {r : Parse σ ε α} (h : T.From t r) (le : T.pos s ≤ T.pos t) : T.From s r :=
  Parse.Meets.mono h (fun _ _ ⟨valid, more⟩ => ⟨valid, le.trans more⟩)
    (fun _ _ ⟨valid, known⟩ => ⟨valid, T.earlier le known⟩) id id

theorem From.bind (hp : T.From s (p s)) (hf : ∀ a, T.Forward (f a)) : T.From s ((p >>= f) s) :=
  meets_bind hp fun a t ⟨valid, le⟩ => From.later (hf a t valid) le

namespace Forward

theorem pure (a : α) : T.Forward (pure a : Parser σ ε α) := fun _ valid => ⟨valid, Nat.le_refl _⟩

theorem crash : T.Forward (crash : Parser σ ε α) := fun _ _ => trivial

theorem spent : T.Forward (spent : Parser σ ε α) := fun _ _ => trivial

theorem read (g : σ → α) : T.Forward (read g : Parser σ ε α) := fun _ valid => ⟨valid, Nat.le_refl _⟩

theorem bind (hp : T.Forward p) (hf : ∀ a, T.Forward (f a)) : T.Forward (p >>= f) :=
  fun s valid => From.bind (hp s valid) hf

end Forward

namespace Returns

theorem spent : T.Returns (Parser.spent : Parser σ ε α) := fun _ _ => trivial

theorem map {g : α → β} (h : T.Returns p) : T.Returns (g <$> p) :=
  fun s valid => meets_bind (h s valid) fun _ _ => id

theorem guarded {reload : σ → σ → σ} (h : T.Forward p)
    (loads : ∀ s t, T.valid s → T.valid t → T.valid (reload t s) ∧ T.pos (reload t s) = T.pos s) :
    T.Returns (guarded reload p) := by
  intro s valid
  refine meets_guarded (Parse.Meets.mono (h s valid) (fun _ _ => id) ?_ id id)
  rintro e t ⟨valid', known⟩
  obtain ⟨loaded, back⟩ := loads s t valid valid'
  exact ⟨loaded, back, known⟩

theorem attempt_bind {g : Except ε α → Parser σ ε β} (h : T.Returns p) (ok : ∀ a, T.Forward (g (.ok a)))
    (error : ∀ e s, T.valid s → T.known (T.pos s) e → T.From s (g (.error e) s)) :
    T.Forward (attempt p >>= g) := by
  intro s valid
  refine meets_bind (meets_attempt (h s valid)) ?_
  rintro (e | a) t post
  · obtain ⟨valid', same, known⟩ := post
    exact From.later (error e t valid' (same ▸ known)) same.ge
  · obtain ⟨valid', le⟩ := post
    exact From.later (ok a t valid') le

theorem attempt_drop {g : Except ε α → Parser σ ε β} (h : T.Returns p) (hg : ∀ r, T.Forward (g r)) :
    T.Forward (attempt p >>= g) :=
  h.attempt_bind (fun a => hg (.ok a)) fun e s valid _ => hg (.error e) s valid

end Returns

end Track
