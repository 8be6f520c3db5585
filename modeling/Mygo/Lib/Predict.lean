import Mygo.Lib.Descent

/-! Readers, which go through a sequence from left to right and look at one token at a time, and
parsers that come to the same although they go back. -/

universe u

/-- How far a phrase fits.  One that is `cut` fits up to a token that nothing after it takes;
`overrun` asks for a token behind the last one or goes beyond a bound. -/
inductive Reading (τ : Type u)
  | done (rest : List τ)
  | stop
  | cut
  | overrun
  | spent
  deriving DecidableEq

abbrev Reader (τ : Type u) := List τ → Reading τ

namespace Reading

variable {τ : Type u}

def on (o misfit short : Reading τ) (r : Reader τ) : Reading τ :=
  match o with
  | .done rest => r rest
  | .stop => misfit
  | .cut => short
  | .overrun => .overrun
  | .spent => .spent

def Gives (o o' : Reading τ) : Prop := o = o' ∨ o = .spent

theorem Gives.on {o misfit short : Reading τ} {r : Reader τ} (h : o.Gives .stop) :
    (o.on misfit short r).Gives misfit := by
  rcases h with rfl | rfl
  · exact .inl rfl
  · exact .inr rfl

end Reading

namespace Reader

variable {τ : Type u}

def stopped : Reader τ := fun _ => .stop

def andThen (q r : Reader τ) : Reader τ := fun ts => (q ts).on .stop .stop r

def andMore (q r : Reader τ) : Reader τ := fun ts => (q ts).on .stop .cut r

def look (f : τ → Reader τ) : Reader τ
  | [] => .overrun
  | t :: ts => f t (t :: ts)

/-- The token `last` is not left behind. -/
def next (last : τ → Bool) : Reader τ
  | [] => .overrun
  | t :: ts => if last t then .done (t :: ts) else if ts = [] then .overrun else .done ts

def optional (starts : τ → Bool) (q : Reader τ) : Reader τ := look fun t => if starts t then q else .done

/-- A part that is cut where it does not fit. -/
def maybe (starts : τ → Bool) (q : Reader τ) : Reader τ :=
  optional starts fun ts => (q ts).on .cut .cut .done

def fits (last kind : τ → Bool) : Reader τ := look fun t => if kind t then next last else stopped

structure Heads (starts : τ → Bool) (q : Reader τ) : Prop where
  blank : (q []).Gives .overrun
  other : ∀ t ts, starts t = false → (q (t :: ts)).Gives .stop

variable {starts last kind : τ → Bool} {q r : Reader τ} {t : τ} {ts : List τ}

theorem optional_absent (absent : starts t = false) : optional starts q (t :: ts) = .done (t :: ts) := by
  simp [optional, look, absent]

theorem optional_there (there : starts t = true) : optional starts q (t :: ts) = q (t :: ts) := by
  simp [optional, look, there]

theorem andMore_done (q : Reader τ) : q.andMore .done = q := by
  funext ts
  rw [Reader.andMore]
  cases q ts with
  | done | stop | cut | overrun | spent => rfl

theorem heads_fits : Heads kind (fits last kind) where
  blank := .inl rfl
  other t ts absent := by
    simp [fits, look, absent, stopped, Reading.Gives]

theorem heads_spent : Heads starts fun _ => .spent := ⟨.inr rfl, fun _ _ _ => .inr rfl⟩

theorem Heads.andThen (h : Heads starts q) (r : Reader τ) : Heads starts (q.andThen r) where
  blank := by
    rw [Reader.andThen]
    rcases h.blank with blank | blank <;> rw [blank]
    · exact .inl rfl
    · exact .inr rfl
  other t ts absent := (h.other t ts absent).on

theorem Heads.andMore (h : Heads starts q) (r : Reader τ) : Heads starts (q.andMore r) where
  blank := by
    rw [Reader.andMore]
    rcases h.blank with blank | blank <;> rw [blank]
    · exact .inl rfl
    · exact .inr rfl
  other t ts absent := (h.other t ts absent).on

end Reader

/-- What is asked of the rest where a phrase is cut, and whether there may be an error instead. -/
structure Terms (τ : Type u) where
  short : List τ → Prop
  fails : Prop

def Terms.sharp {τ : Type u} : Terms τ := ⟨fun _ => False, False⟩

namespace Parse

variable {σ ε α τ : Type u}

def Arrives (view : σ → List τ → Prop) (a : Terms τ) (o : Reading τ) (r : Parse σ ε α) : Prop :=
  match o with
  | .done rest => r.Meets (fun _ t => view t rest) (fun _ _ => False) False True
  | .stop => r.Meets (fun _ _ => False) (fun _ t => ∃ ts, view t ts) False True
  | .cut => r.Meets (fun _ t => ∃ rest, view t rest ∧ a.short rest) (fun _ t => a.fails ∧ ∃ ts, view t ts)
    False True
  | .overrun => r.Meets (fun _ _ => False) (fun _ _ => False) True True
  | .spent => r.Meets (fun _ _ => False) (fun _ _ => False) False True

variable {view : σ → List τ → Prop} {a b : Terms τ} {o o' : Reading τ} {r : Parse σ ε α}

theorem Arrives.mono (h : r.Arrives view a o) (short : ∀ ts, a.short ts → b.short ts)
    (fails : a.fails → b.fails) : r.Arrives view b o := by
  cases o with
  | done | stop | overrun | spent => exact h
  | cut =>
    refine Meets.mono h ?_ (fun _ _ => .imp_left fails) id id
    exact fun _ _ ⟨rest, viewed, left⟩ => ⟨rest, viewed, short rest left⟩

theorem arrives_spent : (.out_of_fuel : Parse σ ε α).Arrives view a o := by
  cases o with
  | done | stop | cut | overrun | spent => trivial

theorem Arrives.gives (h : r.Arrives view a o) (gives : o.Gives o') : r.Arrives view a o' := by
  rcases gives with rfl | rfl
  · exact h
  · cases r with
    | out_of_fuel => exact arrives_spent
    | ok | err | abort => exact h.elim

theorem Arrives.shorten {rest : List τ} (h : r.Arrives view a (.done rest)) (short : a.short rest) :
    r.Arrives view a .cut :=
  Meets.mono h (fun _ _ viewed => ⟨rest, viewed, short⟩) (fun _ _ => False.elim) id id

theorem Arrives.again (h : r.Arrives view a o)
    (same : o = o' ∨ o' = .cut ∧ ∃ rest, o = .done rest ∧ a.short rest) : r.Arrives view a o' := by
  rcases same with rfl | ⟨rfl, rest, rfl, short⟩
  · exact h
  · exact h.shorten short

theorem Arrives.viewed (h : r.Arrives view a o) :
    r.Meets (fun _ _ => True) (fun _ t => ∃ ts, view t ts) True True := by
  cases o with
  | done | overrun | spent => exact Meets.mono h (fun _ _ _ => trivial) (fun _ _ => False.elim) (fun _ => trivial) id
  | stop => exact Meets.mono h (fun _ _ _ => trivial) (fun _ _ => id) False.elim id
  | cut => exact Meets.mono h (fun _ _ _ => trivial) (fun _ _ => And.right) False.elim id

/-- A reader of phrases that are never cut tells whether a run that ends fits, fails or crashes. -/
theorem Arrives.tells (h : r.Arrives view .sharp o) (ends : r ≠ .out_of_fuel) :
    ((∃ x s, r = .ok x s) ↔ ∃ rest, o = .done rest) ∧ ((∃ e s, r = .err e s) ↔ o = .stop) ∧
      (r = .abort ↔ o = .overrun) := by
  cases r with
  | ok x s =>
    cases o with
    | done rest => simp
    | cut =>
      obtain ⟨rest, -, short⟩ := h
      exact short.elim
    | stop | overrun | spent => exact h.elim
  | err e s =>
    cases o with
    | stop => simp
    | cut => exact h.1.elim
    | done | overrun | spent => exact h.elim
  | abort =>
    cases o with
    | overrun => simp
    | done | stop | cut | spent => exact h.elim
  | out_of_fuel => exact absurd rfl ends

end Parse

namespace Parser

variable {σ ε α β τ : Type u} {view : σ → List τ → Prop} {a b : Terms τ}
variable {q r : Reader τ} {o misfit short : Reading τ} {p : Parser σ ε α} {s : σ} {ts : List τ}

def Obeys (view : σ → List τ → Prop) (a : Terms τ) (q : Reader τ) (p : Parser σ ε α) : Prop :=
  ∀ s ts, view s ts → (p s).Arrives view a (q ts)

structure Rewinds (view : σ → List τ → Prop) (a : Terms τ) (q : Reader τ) (p : Parser σ ε α) : Prop where
  obeys : Obeys view a q p
  rewinds : ∀ s ts, view s ts → (p s).Meets (fun _ _ => True) (fun _ t => view t ts) True True

theorem obeys_pure (x : α) : Obeys view a .done (pure x : Parser σ ε α) := fun _ _ => id

theorem obeys_raise (e : ε) : Obeys view a Reader.stopped (raise e : Parser σ ε α) :=
  fun _ ts viewed => ⟨ts, viewed⟩

theorem obeys_crash : Obeys view a (fun _ => .overrun) (crash : Parser σ ε α) := fun _ _ _ => trivial

theorem obeys_spent : Obeys view a q (spent : Parser σ ε α) := fun _ _ _ => Parse.arrives_spent

theorem Obeys.mono (h : Obeys view a q p) (short : ∀ ts, a.short ts → b.short ts)
    (fails : a.fails → b.fails) : Obeys view b q p :=
  fun s ts viewed => (h s ts viewed).mono short fails

theorem Obeys.ite {c d : Prop} [Decidable c] [Decidable d] {q' : Reader τ} {p' : Parser σ ε α} (same : c ↔ d)
    (there : d → Obeys view a q p) (absent : ¬ d → Obeys view a q' p') :
    Obeys view a (if c then q else q') (if d then p else p') := by
  by_cases h : d
  · rw [if_pos h, if_pos (same.mpr h)]
    exact there h
  · rw [if_neg h, if_neg (mt same.mp h)]
    exact absent h

theorem Obeys.sharp (h : Obeys view .sharp q p) : Obeys view a q p :=
  h.mono (fun _ => False.elim) False.elim

theorem Obeys.guarded {reload : σ → σ → σ} (h : Obeys view a q p)
    (load : ∀ {s t ts us}, view s ts → view t us → view (reload t s) ts) :
    Rewinds view a q (guarded reload p) := by
  constructor
  · intro s ts viewed
    have comes := h s ts viewed
    rw [Parser.guarded]
    cases run : p s with
    | ok | abort | out_of_fuel =>
      rw [run] at comes
      exact comes
    | err e t =>
      rw [run] at comes
      cases here : q ts with
      | done | overrun | spent =>
        rw [here] at comes
        exact comes.elim
      | stop =>
        rw [here] at comes
        obtain ⟨us, viewed'⟩ := comes
        exact ⟨ts, load viewed viewed'⟩
      | cut =>
        rw [here] at comes
        obtain ⟨fails, us, viewed'⟩ := comes
        exact ⟨fails, ts, load viewed viewed'⟩
  · intro s ts viewed
    refine meets_guarded ((h s ts viewed).viewed.mono (fun _ _ => id) ?_ id id)
    rintro _ t ⟨us, viewed'⟩
    exact load viewed viewed'

theorem arrives_attempt {f : Except ε α → Parser σ ε β} (h : (p s).Arrives view a o)
    (ok : ∀ x t rest, view t rest → (f (.ok x) t).Arrives view b (r rest))
    (err : ∀ e t ts, p s = .err e t → o = .stop → view t ts → (f (.error e) t).Arrives view b misfit)
    (cut : ∀ x t rest, view t rest → a.short rest → (f (.ok x) t).Arrives view b short)
    (fails : ∀ e t ts, view t ts → a.fails → (f (.error e) t).Arrives view b short) :
    ((attempt p >>= f) s).Arrives view b (o.on misfit short r) := by
  rw [run_bind, attempt]
  cases run : p s with
  | ok x t =>
    rw [run] at h
    cases o with
    | done rest => exact ok x t rest h
    | cut =>
      obtain ⟨rest, viewed, left⟩ := h
      exact cut x t rest viewed left
    | stop | overrun | spent => exact h.elim
  | err e t =>
    rw [run] at h
    cases o with
    | stop =>
      obtain ⟨ts, viewed⟩ := h
      exact err e t ts run rfl viewed
    | cut =>
      obtain ⟨fail, ts, viewed⟩ := h
      exact fails e t ts viewed fail
    | done | overrun | spent => exact h.elim
  | abort =>
    rw [run] at h
    cases o with
    | overrun => trivial
    | done | stop | cut | spent => exact h.elim
  | out_of_fuel => exact Parse.arrives_spent

theorem Rewinds.arrives_attempt {f : Except ε α → Parser σ ε β} (h : Rewinds view a q p) (viewed : view s ts)
    (sure : ¬ a.fails) (ok : ∀ x t rest, view t rest → (f (.ok x) t).Arrives view b (r rest))
    (err : ∀ e t, p s = .err e t → q ts = .stop → view t ts → (f (.error e) t).Arrives view b misfit)
    (cut : ∀ x t rest, view t rest → a.short rest → (f (.ok x) t).Arrives view b short) :
    ((attempt p >>= f) s).Arrives view b ((q ts).on misfit short r) := by
  refine Parser.arrives_attempt (h.obeys s ts viewed) ok ?_ cut fun _ _ _ _ fails => absurd fails sure
  intro e t _ run stop _
  have rewinds := h.rewinds s ts viewed
  rw [run] at rewinds
  exact err e t run stop rewinds

theorem Rewinds.attempt_or {q' : Reader τ} {f : Except ε α → Parser σ ε β} (h : Rewinds view .sharp q p)
    (ok : ∀ x, Obeys view b .done (f (.ok x))) (err : ∀ e, Obeys view b q' (f (.error e))) :
    Obeys view b (fun ts => (q ts).on (q' ts) .stop .done) (attempt p >>= f) := by
  intro s ts viewed
  refine h.arrives_attempt viewed id (fun x => ok x) ?_ fun _ _ _ _ => False.elim
  exact fun e t _ _ viewed' => err e t ts viewed'

theorem bind_attempt (p : Parser σ ε α) (f : α → Parser σ ε β) :
    p >>= f = attempt p >>= fun r => match r with
      | .ok x => f x
      | .error e => raise e := by
  funext s
  rw [run_bind, run_bind, attempt]
  cases p s with
  | ok | err | abort | out_of_fuel => rfl

namespace Obeys

theorem attempt_andThen {f : Except ε α → Parser σ ε β} (h : Obeys view a q p)
    (ok : ∀ x, Obeys view b r (f (.ok x))) (err : ∀ e, Obeys view b Reader.stopped (f (.error e)))
    (bars : ∀ rest, a.short rest → (r rest).Gives .stop) :
    Obeys view b (q.andThen r) (attempt p >>= f) := by
  intro s ts viewed
  refine arrives_attempt (h s ts viewed) (fun x => ok x) ?_ ?_ ?_
  · exact fun e t us _ _ viewed' => err e t us viewed'
  · exact fun x t rest viewed' left => (ok x t rest viewed').gives (bars rest left)
  · exact fun e t us viewed' _ => err e t us viewed'

theorem andThen {f : α → Parser σ ε β} (h : Obeys view a q p) (hf : ∀ x, Obeys view b r (f x))
    (bars : ∀ rest, a.short rest → (r rest).Gives .stop) : Obeys view b (q.andThen r) (p >>= f) := by
  rw [bind_attempt]
  exact h.attempt_andThen hf (fun e => obeys_raise e) bars

theorem after {f : α → Parser σ ε β} (h : Obeys view .sharp q p) (hf : ∀ x, Obeys view b r (f x)) :
    Obeys view b (q.andThen r) (p >>= f) :=
  h.andThen hf fun _ => False.elim

theorem attempt_sure {f : Except ε α → Parser σ ε β} (h : Obeys view a q p) (sure : ¬ a.fails) (always : Sure p)
    (ok : ∀ x, Obeys view b r (f (.ok x))) (bars : ∀ rest, a.short rest → (r rest).Gives .stop) :
    Obeys view b (q.andThen r) (attempt p >>= f) := by
  intro s ts viewed
  refine arrives_attempt (h s ts viewed) (fun x => ok x) ?_ ?_ fun _ _ _ _ fails => absurd fails sure
  · exact fun e t us run _ _ => absurd run always.ne_err
  · exact fun x t rest viewed' left => (ok x t rest viewed').gives (bars rest left)

theorem attempt_andMore {f : Except ε α → Parser σ ε β} (h : Obeys view a q p) (sure : ¬ a.fails)
    (ok : ∀ x, Obeys view b r (f (.ok x))) (err : ∀ e, Obeys view b Reader.stopped (f (.error e)))
    (leaves : ∀ rest, a.short rest → (r rest).Gives (.done rest) ∧ b.short rest) :
    Obeys view b (q.andMore r) (attempt p >>= f) := by
  intro s ts viewed
  refine arrives_attempt (h s ts viewed) (fun x => ok x) ?_ ?_ fun _ _ _ _ fails => absurd fails sure
  · exact fun e t us _ _ viewed' => err e t us viewed'
  · intro x t rest viewed' left
    obtain ⟨gives, short⟩ := leaves rest left
    exact ((ok x t rest viewed').gives gives).shorten short

theorem attempt_finish {f : Except ε α → Parser σ ε β} (h : Obeys view a q p) (sure : ¬ a.fails)
    (ok : ∀ x, Obeys view a .done (f (.ok x))) (err : ∀ e, Obeys view a Reader.stopped (f (.error e))) :
    Obeys view a q (attempt p >>= f) := by
  rw [← Reader.andMore_done q]
  exact h.attempt_andMore sure ok err fun rest left => ⟨.inl rfl, left⟩

theorem finish {f : α → Parser σ ε β} (h : Obeys view a q p) (hf : ∀ x, Obeys view a .done (f x)) :
    Obeys view a q (p >>= f) := by
  intro s ts viewed
  have comes := h s ts viewed
  rw [run_bind]
  cases run : p s with
  | ok x t =>
    rw [run] at comes
    cases here : q ts with
    | done rest =>
      rw [here] at comes
      exact hf x t rest comes
    | cut =>
      rw [here] at comes
      obtain ⟨rest, viewed', left⟩ := comes
      exact (hf x t rest viewed').shorten left
    | stop | overrun | spent =>
      rw [here] at comes
      exact comes.elim
  | err | abort | out_of_fuel =>
    rw [run] at comes
    revert comes
    cases q ts with
    | done | stop | cut | overrun | spent => exact id

end Obeys

theorem Rewinds.attempt_optional {starts : τ → Bool} {f : Except ε α → Parser σ ε β} (h : Rewinds view a q p)
    (sure : ¬ a.fails) (heads : Reader.Heads starts q) (ok : ∀ x, Obeys view b r (f (.ok x)))
    (err : ∀ e, Obeys view b .done (f (.error e)))
    (misfit : ∀ t ts, starts t = true → q (t :: ts) = .stop → b.short (t :: ts))
    (cut : ∀ x t rest, view t rest → a.short rest → (f (.ok x) t).Arrives view b short) :
    Obeys view b (Reader.optional starts fun ts => (q ts).on .cut short r) (attempt p >>= f) := by
  intro s ts viewed
  cases ts with
  | nil =>
    have comes := (h.obeys s [] viewed).gives heads.blank
    rw [run_bind, attempt]
    cases run : p s with
    | out_of_fuel => exact Parse.arrives_spent
    | abort => trivial
    | ok | err =>
      rw [run] at comes
      exact comes.elim
  | cons t us =>
    cases starting : starts t with
    | true =>
      rw [Reader.optional_there starting]
      refine h.arrives_attempt viewed sure (fun x => ok x) ?_ cut
      exact fun e u _ stop viewed' => (err e u _ viewed').shorten (misfit t us starting stop)
    | false =>
      rw [Reader.optional_absent starting]
      have comes := (h.obeys s _ viewed).gives (heads.other t us starting)
      have rewinds := h.rewinds s _ viewed
      rw [run_bind, attempt]
      cases run : p s with
      | out_of_fuel => exact Parse.arrives_spent
      | err e u =>
        rw [run] at rewinds
        exact err e u _ rewinds
      | ok | abort =>
        rw [run] at comes
        exact comes.elim

theorem Rewinds.attempt_maybe {starts : τ → Bool} {f : Except ε α → Parser σ ε β} (h : Rewinds view a q p)
    (sure : ¬ a.fails) (heads : Reader.Heads starts q) (both : ∀ x, Obeys view b r (f x))
    (misfit : ∀ t ts, starts t = true → (r (t :: ts)).Gives .stop)
    (bars : ∀ rest, a.short rest → (r rest).Gives .stop) :
    Obeys view b ((Reader.maybe starts q).andThen r) (attempt p >>= f) := by
  intro s ts viewed
  cases ts with
  | nil =>
    have arrives := (h.obeys s [] viewed).gives heads.blank
    rw [run_bind, attempt]
    cases run : p s with
    | out_of_fuel => exact Parse.arrives_spent
    | abort => trivial
    | ok | err =>
      rw [run] at arrives
      exact arrives.elim
  | cons t us =>
    cases starting : starts t with
    | true =>
      have read : (Reader.maybe starts q).andThen r (t :: us) = (q (t :: us)).on .stop .stop r := by
        rw [Reader.andThen, Reader.maybe, Reader.optional_there starting]
        cases q (t :: us) with
        | done | stop | cut | overrun | spent => rfl
      rw [read]
      refine h.arrives_attempt viewed sure (fun x => both _) ?_ ?_
      · exact fun e u _ _ viewed' => (both _ u _ viewed').gives (misfit t us starting)
      · exact fun x u rest viewed' left => (both _ u rest viewed').gives (bars rest left)
    | false =>
      have read : (Reader.maybe starts q).andThen r (t :: us) = r (t :: us) := by
        rw [Reader.andThen, Reader.maybe, Reader.optional_absent starting]
        rfl
      rw [read]
      have arrives := (h.obeys s _ viewed).gives (heads.other t us starting)
      have rewinds := h.rewinds s _ viewed
      rw [run_bind, attempt]
      cases run : p s with
      | out_of_fuel => exact Parse.arrives_spent
      | err e u =>
        rw [run] at rewinds
        exact both _ u _ rewinds
      | ok | abort =>
        rw [run] at arrives
        exact arrives.elim

theorem Rewinds.map {g : α → β} (h : Rewinds view a q p) : Rewinds view a q (g <$> p) :=
  ⟨h.obeys.finish fun x => obeys_pure (g x),
    fun s ts viewed => meets_bind (h.rewinds s ts viewed) fun _ _ _ => trivial⟩

theorem Rewinds.mono (h : Rewinds view a q p) (short : ∀ ts, a.short ts → b.short ts) (fails : a.fails → b.fails) :
    Rewinds view b q p := ⟨h.obeys.mono short fails, h.rewinds⟩

end Parser
