import Mygo.Lib.Parse

/-! Postconditions of parsers, and the descent of a measure of the stream by which parsers
terminate. -/

universe u

namespace Parse

variable {σ ε α : Type u}

/-- What is asked of a value and its stream, of an error and its stream, of a crash and of running
out of the bound. -/
def Meets (Q : α → σ → Prop) (E : ε → σ → Prop) (A F : Prop) : Parse σ ε α → Prop
  | .ok a s => Q a s
  | .err e s => E e s
  | .abort => A
  | .out_of_fuel => F

variable {Q Q' : α → σ → Prop} {E E' : ε → σ → Prop} {A A' F F' : Prop} {r : Parse σ ε α}

theorem Meets.mono (h : r.Meets Q E A F) (ok : ∀ a s, Q a s → Q' a s) (err : ∀ e s, E e s → E' e s)
    (abort : A → A') (out_of_fuel : F → F') : r.Meets Q' E' A' F' := by
  cases r with
  | ok a s => exact ok a s h
  | err e s => exact err e s h
  | abort => exact abort h
  | out_of_fuel => exact out_of_fuel h

theorem Meets.always (ok : ∀ a s, Q a s) (err : ∀ e s, E e s) (abort : A) (out_of_fuel : F) :
    r.Meets Q E A F := by
  cases r with
  | ok a s => exact ok a s
  | err e s => exact err e s
  | abort => exact abort
  | out_of_fuel => exact out_of_fuel

end Parse

namespace Parser

variable {σ ε α β : Type u}

section Rules

variable {p : Parser σ ε α} {f : α → Parser σ ε β} {s : σ}
variable {Q : α → σ → Prop} {R : β → σ → Prop} {D E : ε → σ → Prop} {A F : Prop}

theorem meets_bind (hp : (p s).Meets Q E A F) (hf : ∀ a t, Q a t → (f a t).Meets R E A F) :
    ((p >>= f) s).Meets R E A F := by
  rw [run_bind]
  cases run : p s with
  | ok a t =>
    rw [run] at hp
    exact hf a t hp
  | err e t =>
    rw [run] at hp
    exact hp
  | abort =>
    rw [run] at hp
    exact hp
  | out_of_fuel =>
    rw [run] at hp
    exact hp

theorem meets_attempt (h : (p s).Meets Q E A F) :
    (attempt p s).Meets (fun r t => match r with
      | .ok a => Q a t
      | .error e => E e t) D A F := by
  rw [attempt]
  cases run : p s with
  | ok a t =>
    rw [run] at h
    exact h
  | err e t =>
    rw [run] at h
    exact h
  | abort =>
    rw [run] at h
    exact h
  | out_of_fuel =>
    rw [run] at h
    exact h

theorem meets_guarded {reload : σ → σ → σ} (h : (p s).Meets Q (fun e t => E e (reload t s)) A F) :
    (guarded reload p s).Meets Q E A F := by
  rw [guarded]
  cases run : p s with
  | ok a t =>
    rw [run] at h
    exact h
  | err e t =>
    rw [run] at h
    exact h
  | abort =>
    rw [run] at h
    exact h
  | out_of_fuel =>
    rw [run] at h
    exact h

end Rules

section Outcomes

variable {p : Parser σ ε α} {f : α → Parser σ ε β} {P : α → Prop} {Q : β → Prop}

def Sure (p : Parser σ ε α) : Prop :=
  ∀ s, (p s).Meets (fun _ _ => True) (fun _ _ => False) True True

theorem Sure.bind (hp : Sure p) (hf : ∀ a, Sure (f a)) : Sure (p >>= f) :=
  fun s => meets_bind (hp s) fun a t _ => hf a t

theorem sure_pure (a : α) : Sure (pure a : Parser σ ε α) := fun _ => trivial

theorem sure_crash : Sure (crash : Parser σ ε α) := fun _ => trivial

theorem sure_read (g : σ → α) : Sure (read g : Parser σ ε α) := fun _ => trivial

theorem sure_attempt (p : Parser σ ε α) : Sure (attempt p) := by
  intro s
  rw [attempt]
  cases p s with
  | ok | err | abort | out_of_fuel => trivial

def Yields (P : α → Prop) (p : Parser σ ε α) : Prop :=
  ∀ s, (p s).Meets (fun a _ => P a) (fun _ _ => True) True True

theorem Yields.bind (hp : Yields P p) (hf : ∀ a, P a → Yields Q (f a)) : Yields Q (p >>= f) :=
  fun s => meets_bind (hp s) fun a t holds => hf a holds t

theorem Yields.after (hf : ∀ a, Yields Q (f a)) : Yields Q (p >>= f) :=
  fun _ => meets_bind (Q := fun _ _ => True)
    (.always (fun _ _ => trivial) (fun _ _ => trivial) trivial trivial) fun a t _ => hf a t

theorem Yields.mono {P' : α → Prop} (h : Yields P p) (weaken : ∀ a, P a → P' a) : Yields P' p :=
  fun s => (h s).mono (fun a _ => weaken a) (fun _ _ => id) id id

theorem yields_pure {a : α} (h : P a) : Yields P (pure a : Parser σ ε α) := fun _ => h

theorem yields_raise (e : ε) : Yields P (raise e : Parser σ ε α) := fun _ => trivial

theorem yields_crash : Yields P (crash : Parser σ ε α) := fun _ => trivial

theorem yields_spent : Yields P (spent : Parser σ ε α) := fun _ => trivial

theorem Yields.attempt (h : Yields P p) : Yields (fun r => ∀ a, r = .ok a → P a) (attempt p) := by
  intro s
  refine (meets_attempt (D := fun _ _ => True) (h s)).mono ?_ (fun _ _ => id) id id
  rintro (e | a) t holds _ same
  · cases same
  · cases same
    exact holds

theorem Sure.attempt (h : Sure p) : Yields (fun r => ∀ e, r ≠ .error e) (Parser.attempt p) := by
  intro s
  refine (meets_attempt (D := fun _ _ => True) (h s)).mono ?_ (fun _ _ => id) id id
  rintro (e | a) t fine e' same
  · exact fine
  · cases same

theorem Yields.guarded {reload : σ → σ → σ} (h : Yields P p) : Yields P (guarded reload p) :=
  fun s => meets_guarded (h s)

theorem Yields.map {g : α → β} (h : Yields P p) (hg : ∀ a, P a → Q (g a)) : Yields Q (g <$> p) :=
  h.bind fun a holds => yields_pure (hg a holds)

theorem yields_any (p : Parser σ ε α) : Yields (fun _ => True) p :=
  fun _ => .always (fun _ _ => trivial) (fun _ _ => trivial) trivial trivial

def Raises (E : ε → Prop) (p : Parser σ ε α) : Prop :=
  ∀ s, (p s).Meets (fun _ _ => True) (fun e _ => E e) True True

variable {E : ε → Prop}

theorem Raises.bind (hp : Raises E p) (hf : ∀ a, Raises E (f a)) : Raises E (p >>= f) :=
  fun s => meets_bind (hp s) fun a t _ => hf a t

theorem Sure.ne_err {s t : σ} {e : ε} (h : Sure p) : p s ≠ .err e t := by
  intro run
  have fine := h s
  rw [run] at fine
  exact fine

theorem Sure.raises (h : Sure p) : Raises E p :=
  fun s => (h s).mono (fun _ _ => id) (fun _ _ => False.elim) id id

theorem raises_attempt (p : Parser σ ε α) : Raises E (Parser.attempt p) := (sure_attempt p).raises

theorem Raises.attempt_bind {E' : ε → Prop} {g : Except ε α → Parser σ ε β} (h : Raises E p)
    (ok : ∀ a, Raises E' (g (.ok a))) (error : ∀ e, E e → Raises E' (g (.error e))) :
    Raises E' (Parser.attempt p >>= g) := by
  refine fun s => meets_bind (meets_attempt (h s)) fun r t holds => ?_
  cases r with
  | ok a => exact ok a t
  | error e => exact error e holds t

theorem raises_raise {e : ε} (h : E e) : Raises E (raise e : Parser σ ε α) := fun _ => h

theorem raises_pure (a : α) : Raises E (pure a : Parser σ ε α) := fun _ => trivial

theorem raises_spent : Raises E (spent : Parser σ ε α) := fun _ => trivial

theorem Raises.guarded {reload : σ → σ → σ} (h : Raises E p) : Raises E (guarded reload p) :=
  fun s => meets_guarded (h s)

end Outcomes

structure Measure (σ : Type u) where
  valid : σ → Prop
  rest : σ → Nat

namespace Measure

variable (M : Measure σ) {p : Parser σ ε α} {f : α → Parser σ ε β} {s t : σ}
variable {low n m k j : Nat}

/-- Results that leave at most the rest of `s`, and a success `k` less; running out of the bound
takes a rest of `n`. -/
def Leaves (n k : Nat) (s : σ) : Parse σ ε α → Prop :=
  Parse.Meets (fun _ t => M.valid t ∧ M.rest t + k ≤ M.rest s) (fun _ t => M.valid t ∧ M.rest t ≤ M.rest s)
    True (n ≤ M.rest s)

def Descends (low n k : Nat) (p : Parser σ ε α) : Prop :=
  ∀ s, M.valid s → low ≤ M.rest s → M.Leaves n k s (p s)

variable {M}

theorem Leaves.bind (hp : M.Leaves n k s (p t))
    (hf : ∀ a u, M.valid u → M.rest u + k ≤ M.rest s → M.Leaves n j s (f a u)) :
    M.Leaves n j s ((p >>= f) t) :=
  meets_bind hp fun a u ⟨valid, left⟩ => hf a u valid left

theorem Leaves.later {r : Parse σ ε α} (h : M.Leaves m k t r) (less : M.rest t + j ≤ M.rest s)
    (bound : n ≤ m + j) : M.Leaves n (k + j) s r := by
  refine Parse.Meets.mono h ?_ ?_ id ?_
  · exact fun _ u ⟨valid, left⟩ => ⟨valid, by omega⟩
  · exact fun _ u ⟨valid, left⟩ => ⟨valid, by omega⟩
  · intro left
    omega

namespace Descends

theorem mono {low' n' k' : Nat} (h : M.Descends low n k p) (start : low ≤ low') (bound : n' ≤ n)
    (progress : k' ≤ k) : M.Descends low' n' k' p := by
  intro s valid inside
  refine Parse.Meets.mono (h s valid (start.trans inside)) ?_ (fun _ _ => id) id bound.trans
  exact fun _ t ⟨valid, left⟩ => ⟨valid, (Nat.add_le_add_left progress _).trans left⟩

theorem keeps (h : M.Descends 0 n k p) (valid : M.valid s) :
    (p s).Meets (fun _ t => M.valid t) (fun _ _ => True) True True :=
  (h s valid (Nat.zero_le _)).mono (fun _ _ => And.left) (fun _ _ _ => trivial) id fun _ => trivial

theorem loosen (h : M.Descends low n k p) : M.Descends low n 0 p :=
  h.mono (Nat.le_refl _) (Nat.le_refl _) (Nat.zero_le _)

theorem lower (h : M.Descends low n k p) : M.Descends low (n - j) k p :=
  h.mono (Nat.le_refl _) (Nat.sub_le _ _) (Nat.le_refl _)

theorem inside (h : M.Descends 0 n k p) : M.Descends low n k p :=
  h.mono (Nat.zero_le _) (Nat.le_refl _) (Nat.le_refl _)

theorem pure (a : α) : M.Descends low n 0 (pure a : Parser σ ε α) :=
  fun _ valid _ => ⟨valid, Nat.le_refl _⟩

theorem raise (e : ε) : M.Descends low n k (raise e : Parser σ ε α) :=
  fun _ valid _ => ⟨valid, Nat.le_refl _⟩

theorem crash : M.Descends low n k (crash : Parser σ ε α) := fun _ _ _ => trivial

theorem spent : M.Descends low 0 k (spent : Parser σ ε α) := fun _ _ _ => Nat.zero_le _

theorem read (g : σ → α) : M.Descends low n 0 (read g : Parser σ ε α) :=
  fun _ valid _ => ⟨valid, Nat.le_refl _⟩

theorem bind (hp : M.Descends low n k p) (hf : ∀ a, M.Descends 0 (n - k) j (f a)) :
    M.Descends low n (j + k) (p >>= f) := by
  intro s valid inside
  refine Leaves.bind (hp s valid inside) fun a t valid less => ?_
  exact (hf a t valid (Nat.zero_le _)).later less (by omega)

theorem bind_later (hp : M.Descends low n 0 p) (hf : ∀ a, M.Descends 0 n k (f a)) :
    M.Descends low n k (p >>= f) :=
  hp.bind hf

theorem bind_first (hp : M.Descends low n 1 p) (hf : ∀ a, M.Descends 0 (n - 1) 0 (f a)) :
    M.Descends low n 1 (p >>= f) :=
  hp.bind hf

theorem attempt (h : M.Descends low n k p) : M.Descends low n 0 (Parser.attempt p) := by
  intro s valid inside
  refine Parse.Meets.mono (meets_attempt (D := fun _ _ => False) (h s valid inside)) ?_
    (fun _ _ => False.elim) id id
  rintro (e | a) t ⟨valid', less⟩
  · exact ⟨valid', less⟩
  · exact ⟨valid', (Nat.le_add_right _ _).trans less⟩

theorem bind_attempt {i : Nat} {g : Except ε α → Parser σ ε β} (h : M.Descends low n k p)
    (ok : ∀ a, M.Descends 0 (n - k) j (g (.ok a))) (err : ∀ e, M.Descends 0 n i (g (.error e)))
    (progress : i ≤ j + k) : M.Descends low n i (Parser.attempt p >>= g) := by
  intro s valid inside
  refine meets_bind (meets_attempt (h s valid inside)) fun r t post => ?_
  cases r with
  | ok a =>
    have ends := (ok a t post.1 (Nat.zero_le _)).later (n := n) post.2 (by omega)
    exact Parse.Meets.mono ends (fun _ u left => ⟨left.1, by omega⟩) (fun _ _ => id) id id
  | error e => exact (err e t post.1 (Nat.zero_le _)).later (j := 0) post.2 (Nat.le_refl _)

theorem attempt_first {g : Except ε α → Parser σ ε β} (h : M.Descends low n 1 p)
    (ok : ∀ a, M.Descends 0 (n - 1) 0 (g (.ok a))) (err : ∀ e, M.Descends 0 n 1 (g (.error e))) :
    M.Descends low n 1 (Parser.attempt p >>= g) :=
  h.bind_attempt ok err (Nat.le_refl _)

theorem attempt_later {g : Except ε α → Parser σ ε β} (h : M.Descends low n k p)
    (ok : ∀ a, M.Descends 0 (n - k) 0 (g (.ok a))) (err : ∀ e, M.Descends 0 n 0 (g (.error e))) :
    M.Descends low n 0 (Parser.attempt p >>= g) :=
  h.bind_attempt ok err (Nat.zero_le _)

theorem map {g : α → β} (h : M.Descends low n k p) : M.Descends low n k (g <$> p) :=
  (h.bind fun a => pure (g a)).mono (Nat.le_refl _) (Nat.le_refl _) (Nat.le_add_left _ _)

theorem guarded {reload : σ → σ → σ} (h : M.Descends low n k p)
    (load : ∀ s t, M.valid s → M.valid t → M.valid (reload t s) ∧ M.rest (reload t s) = M.rest s) :
    M.Descends low n k (Parser.guarded reload p) := by
  intro s valid inside
  refine meets_guarded (Parse.Meets.mono (h s valid inside) (fun _ _ => id) ?_ id id)
  intro _ t ⟨valid', _⟩
  obtain ⟨loaded, same⟩ := load s t valid valid'
  exact ⟨loaded, same.le⟩

end Descends

end Measure

end Parser
