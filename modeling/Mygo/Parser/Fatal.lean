import Mygo.Parser.Backtrack
import Mygo.Parser.Invocations

namespace Mygo

open Parser

variable {σ : Type} [Stream σ] {α β : Type}

section Errors

theorem sure_skip_token (T : TokenType) (rounds : Nat) : Sure (skip_token T rounds : Parsing σ Unit) := by
  induction rounds with
  | zero => exact fun _ => trivial
  | succ rounds ih =>
    refine (sure_is_token T).bind fun found => ?_
    split
    · exact sure_next.bind fun _ => ih
    · exact sure_pure _

def Mild (p : Parsing σ α) : Prop := Raises (fun e => e.is_fatal_ = false) p

def Fatally (r : Parse σ Err α) : Prop := ∃ e t, r = .err e t ∧ e.is_fatal_ = true

omit [Stream σ] in
theorem Mild.not_fatally {p : Parsing σ α} {s : σ} (h : Mild p) : ¬ Fatally (p s) := by
  rintro ⟨e, t, run, fatal⟩
  have mild := h s
  rw [run] at mild
  have mild : e.is_fatal_ = false := mild
  rw [mild] at fatal
  cases fatal

theorem fatally_guard {p : Loc → Parsing σ α} {s : σ} : Fatally (guard p s) ↔ Fatally (p (Stream.loc s) s) := by
  rw [guard, guarded]
  cases p (Stream.loc s) s <;> simp [Fatally]

omit [Stream σ] in
theorem fatally_after {p : Parsing σ α} {f : α → Parsing σ β} {s : σ} (h : Mild p) :
    Fatally ((p >>= f) s) ↔ ∃ a t, p s = .ok a t ∧ Fatally (f a t) := by
  have mild := h.not_fatally (s := s)
  rw [run_bind]
  cases run : p s with
  | ok a t => simp
  | abort | out_of_fuel => simp [Fatally]
  | err e t =>
    rw [run] at mild
    simpa [Fatally] using mild

omit [Stream σ] in
theorem fatally_first {p : Parsing σ α} {f : α → Parsing σ β} {s : σ} (h : ∀ a, Mild (f a)) :
    Fatally ((p >>= f) s) ↔ Fatally (p s) := by
  rw [run_bind]
  cases p s with
  | ok a t => exact iff_of_false (h a).not_fatally nofun
  | err | abort | out_of_fuel => simp [Fatally]

theorem mild_fail (msg : String) : Mild (fail msg : Parsing σ α) :=
  (sure_read Stream.loc).raises.bind fun _ => raises_raise rfl

theorem mild_expect_token (T : TokenType) : Mild (expect_token T : Parsing σ Value) := by
  refine sure_peek.raises.bind fun v => ?_
  cases v with
  | none => exact mild_fail _
  | some v =>
    refine sure_peeked.raises.bind fun w => ?_
    split
    · exact sure_next.raises.bind fun _ => raises_pure _
    · exact mild_fail _

theorem Expr.mild_parse (rounds : Nat) : Mild (Expr.parse rounds : Parsing σ Expr) := by
  cases rounds with
  | zero => exact raises_spent
  | succ rounds =>
    refine Raises.guarded fun s => ?_
    refine ((raises_attempt _).bind fun r => ?_) s
    cases r with
    | error e => exact mild_fail _
    | ok e =>
      refine (sure_peeked.bind fun v => sure_pure v.type_).raises.bind fun t => ?_
      split
      · refine sure_next.raises.bind fun _ => (raises_attempt _).bind fun r => ?_
        cases r with
        | error e => exact mild_fail _
        | ok e => exact (sure_read _).raises.bind fun _ => raises_pure _
      · exact (sure_read _).raises.bind fun _ => raises_pure _

def VarWithoutName (s : σ) : Prop :=
  ∃ v t, (expect_token .Var : Parsing σ Value) s = .ok v t ∧
    ∃ u, (is_token .Symbol : Parsing σ Bool) t = .ok false u

theorem run_fatal (msg : String) (s : σ) :
    (fatal msg : Parsing σ α) s = .err (.Fatal (Stream.loc s) msg) s := rfl

theorem expect_token_fatal_iff {T : TokenType} {s : σ} :
    Fatally ((expect_token_fatal T : Parsing σ Value) s) ↔
      ∃ t, (is_token T : Parsing σ Bool) s = .ok false t := by
  rw [expect_token_fatal, expect_with, is_token, run_bind, run_bind]
  cases look : peek s with
  | err e t => exact absurd look sure_peek.ne_err
  | abort | out_of_fuel => simp [Fatally]
  | ok v t =>
    cases v with
    | none => simp [Fatally, run_fatal, Err.Fatal]
    | some v =>
      simp only [run_bind]
      cases look' : peeked t with
      | err e u => exact absurd look' sure_peeked.ne_err
      | abort | out_of_fuel => simp [Fatally]
      | ok w u =>
        by_cases same : w.type_ = T
        · have moved : ∀ e u', (do next; pure w : Parsing σ Value) u ≠ .err e u' := fun e u' =>
            (sure_next.bind fun _ => sure_pure w).ne_err
          simp [Fatally, same, moved]
        · simp [Fatally, same, run_fatal, Err.Fatal]

theorem Declaration.fatally_iff {rounds : Nat} {s : σ} :
    Fatally (Declaration.parse rounds s) ↔ VarWithoutName s := by
  rw [Declaration.parse, fatally_guard, fatally_after (mild_expect_token .Var)]
  refine exists_congr fun v => exists_congr fun t => and_congr_right fun _ => ?_
  rw [← expect_token_fatal_iff]
  refine fatally_first fun v => (raises_attempt _).bind fun var_type => (mild_expect_token _).bind fun _ => ?_
  refine (Expr.mild_parse rounds).attempt_bind (fun expr => ?_) fun e mild => ?_
  · exact (sure_read _).raises.bind fun _ => raises_pure _
  · exact (sure_read _).raises.bind fun _ => raises_raise mild

end Errors

inductive Ending
  | value
  | error (e : Err)
  | stuck

omit [Stream σ] in
def Ending.of : Parse σ Err α → Ending
  | .ok _ _ => .value
  | .err e _ => .error e
  | .abort | .out_of_fuel => .stuck

def Event.Before : Event σ → Event σ → Prop
  | .fatal _, .statement => False
  | _, _ => True

/-- A fatal error ends the parse: no statement is tried after it, and the error in the end is
fatal and begins with it. -/
structure FatalEnds (log : List (Event σ)) (ending : Ending) : Prop where
  last : log.Pairwise Event.Before
  first : ∀ e, .fatal e ∈ log →
    ∃ e', ending = .error e' ∧ e'.is_fatal_ = true ∧ e.err_stack_ <+: e'.err_stack_

/-- In no head of a loop a `var` is without its name. -/
def NamedHeads (log : List (Event σ)) : Prop := ∀ s, .header s ∈ log → ¬ VarWithoutName s

inductive Sound (log : List (Event σ)) (ending : Ending) : Prop
  | kept (named : NamedHeads log) (ends : FatalEnds log ending)
  | broken (s : σ) (head : .header s ∈ log) (nameless : VarWithoutName s)
      (fails : ¬ log.Pairwise Event.Before ∨ (∃ e, .fatal e ∈ log) ∧ ending = .stuck)

section Logs

variable {log log' : List (Event σ)} {ending ending' : Ending} {r : Parse σ Err α}

omit [Stream σ] in
theorem before_of {x y : Event σ} (mild : ∀ e, x ≠ .fatal e) : x.Before y := by
  cases x with
  | statement | header => trivial
  | fatal e => exact absurd rfl (mild e)

omit [Stream σ] in
theorem before_fatal (x : Event σ) (e : Err) : x.Before (.fatal e) := by
  cases x with
  | statement | header | fatal => trivial

theorem sound_nil (ending : Ending) : Sound ([] : List (Event σ)) ending := .kept nofun ⟨.nil, nofun⟩

theorem Sound.append (h : Sound log ending) (alive : ending ≠ .stuck)
    (mild : ∀ e, ending = .error e → e.is_fatal_ = false) (h' : Sound log' ending') :
    Sound (log ++ log') ending' := by
  cases h with
  | kept named ends =>
    have none : ∀ e, .fatal e ∉ log := by
      intro e inside
      obtain ⟨e', same, fatal, -⟩ := ends.first e inside
      rw [mild e' same] at fatal
      cases fatal
    cases h' with
    | kept named' ends' =>
      refine .kept (fun s inside => ?_) ⟨?_, fun e inside => ?_⟩
      · exact (List.mem_append.mp inside).elim (named s) (named' s)
      · refine List.pairwise_append.mpr ⟨ends.last, ends'.last, fun x inside y _ => ?_⟩
        exact before_of fun e same => none e (same ▸ inside)
      · exact ends'.first e ((List.mem_append.mp inside).resolve_left (none e))
    | broken s head nameless fails =>
      refine .broken s (List.mem_append_right _ head) nameless (fails.imp ?_ ?_)
      · exact fun unordered ordered => unordered (List.pairwise_append.mp ordered).2.1
      · exact fun ⟨⟨e, inside⟩, stuck⟩ => ⟨⟨e, List.mem_append_right _ inside⟩, stuck⟩
  | broken s head nameless fails =>
    refine .broken s (List.mem_append_left _ head) nameless (.inl fun ordered => ?_)
    rcases fails with unordered | ⟨-, stuck⟩
    · exact unordered (List.pairwise_append.mp ordered).1
    · exact alive stuck

theorem Sound.wrap {e e' : Err} (h : Sound log (.error e)) (fatal : e'.is_fatal_ = e.is_fatal_)
    (longer : e.err_stack_ <+: e'.err_stack_) : Sound log (.error e') := by
  cases h with
  | kept named ends =>
    refine .kept named ⟨ends.last, fun e₀ inside => ?_⟩
    obtain ⟨e₁, same, fatal₁, begins⟩ := ends.first e₀ inside
    cases same
    exact ⟨e', rfl, fatal.trans fatal₁, begins.trans longer⟩
  | broken s head nameless fails =>
    exact .broken s head nameless (.inl (fails.resolve_right fun both => nomatch both.2))

theorem Sound.returned (h : Sound log (.of r)) : Sound (log ++ Tracing.returned r) (.of r) := by
  cases r with
  | ok | abort | out_of_fuel =>
    rw [Tracing.returned, List.append_nil]
    exact h
  | err e t =>
    rw [Tracing.returned]
    split
    · next fatal =>
      cases h with
      | kept named ends =>
        refine .kept (fun s inside => named s ?_) ⟨?_, fun e₀ inside => ?_⟩
        · exact (List.mem_append.mp inside).resolve_right nofun
        · refine List.pairwise_append.mpr ⟨ends.last, List.pairwise_singleton _ _, fun x _ y single => ?_⟩
          cases List.mem_singleton.mp single
          exact before_fatal x e
        · rcases List.mem_append.mp inside with earlier | single
          · exact ends.first e₀ earlier
          · cases List.mem_singleton.mp single
            exact ⟨e, rfl, fatal, List.prefix_rfl⟩
      | broken s head nameless fails =>
        refine .broken s (List.mem_append_left _ head) nameless (.inl fun ordered => ?_)
        exact (fails.resolve_right fun both => nomatch both.2) (List.pairwise_append.mp ordered).1
    · rw [List.append_nil]
      exact h

theorem Sound.statement (h : Sound log ending) : Sound (.statement :: log) ending := by
  have first : Sound [(.statement : Event σ)] .value := by
    refine .kept (fun s inside => ?_) ⟨List.pairwise_singleton _ _, fun e inside => ?_⟩
    · cases List.mem_singleton.mp inside
    · cases List.mem_singleton.mp inside
  exact first.append nofun nofun h

end Logs

def Keeps (p : Tracing σ α) : Prop := ∀ s, Sound (p s).1 (.of (p s).2)

section Rules

variable {p : Tracing σ α} {f : α → Tracing σ β}

theorem keeps_quiet (p : Parsing σ α) : Keeps (Logged.quiet p) := fun _ => sound_nil _

theorem keeps_pure (a : α) : Keeps (pure a : Tracing σ α) := fun _ => sound_nil _

theorem Keeps.bind (hp : Keeps p) (hf : ∀ a, Keeps (f a)) : Keeps (p >>= f) := by
  intro s
  have first := hp s
  rw [Logged.run_bind]
  rcases run : p s with ⟨log, _ | _ | _ | _⟩ <;> rw [run] at first
  · exact first.append nofun nofun (hf _ _)
  · exact first
  · exact first
  · exact first

theorem ending_guard (p : Loc → Tracing σ α) (s : σ) :
    Ending.of (Tracing.guard p s).2 = .of (p (Stream.loc s) s).2 := by
  rw [Tracing.guard, Logged.guarded, Parser.guarded, Logged.plain]
  cases (p (Stream.loc s) s).2 <;> rfl

theorem Keeps.guard {p : Loc → Tracing σ α} (h : ∀ start, Keeps (p start)) : Keeps (Tracing.guard p) := by
  intro s
  rw [ending_guard]
  exact h (Stream.loc s) s

theorem Keeps.attempt_bind {g : Except Err α → Tracing σ β} (hp : Keeps p) (ok : ∀ a, Keeps (g (.ok a)))
    (error : ∀ e s, ∃ e' t, g (.error e) s = ([], .err e' t) ∧ e'.is_fatal_ = e.is_fatal_ ∧
      e.err_stack_ <+: e'.err_stack_) : Keeps (Logged.attempt p >>= g) := by
  intro s
  have first := hp s
  rw [Logged.run_bind, Logged.attempt, Parser.attempt, Logged.plain]
  rcases run : p s with ⟨log, ⟨a, t⟩ | ⟨e, t⟩ | _ | _⟩ <;> rw [run] at first
  · exact first.append (by simp [Ending.of]) (by simp [Ending.of]) (ok a t)
  · obtain ⟨e', t', raised, fatal, longer⟩ := error e t
    simp only [raised, List.append_nil]
    exact first.wrap fatal longer
  · exact first
  · exact first

theorem appended (e : Err) (msg : String) (s : σ) :
    ∃ e' t, (Logged.quiet (append e msg) : Tracing σ α) s = ([], .err e' t) ∧ e'.is_fatal_ = e.is_fatal_ ∧
      e.err_stack_ <+: e'.err_stack_ :=
  ⟨_, _, rfl, rfl, List.prefix_append _ _⟩

theorem Keeps.invoke (hp : Keeps p) : Keeps (Tracing.invoke p) := fun s => (hp s).returned

theorem sound_first {f : Tracing σ Node} {fs : List (Tracing σ Node)} {s : σ} (hf : Sound (f s).1 (.of (f s).2))
    (hfs : Keeps (Block.traced_first fs)) :
    Sound (Block.traced_first (f :: fs) s).1 (.of (Block.traced_first (f :: fs) s).2) := by
  have first : Sound (.statement :: (Tracing.invoke f s).1) (.of (Tracing.invoke f s).2) := hf.returned.statement
  rw [Block.traced_first, Logged.run_bind, Logged.opening, Logged.attempt, Parser.attempt, Logged.plain]
  rcases run : Tracing.invoke f s with ⟨log, ⟨node, t⟩ | ⟨e, t⟩ | _ | _⟩ <;> rw [run] at first
  · exact first.append (by simp [Ending.of]) (by simp [Ending.of]) (sound_nil _)
  · by_cases fatal : e.is_fatal_ = true
    · have raised : (Logged.quiet (raise e) : Tracing σ (Option Node)) t = ([], .err e t) := rfl
      simp only [if_pos fatal, raised, List.append_nil]
      exact first
    · simp only [if_neg fatal]
      refine first.append (by simp [Ending.of]) (fun e' same => ?_) (hfs t)
      cases same
      exact Bool.eq_false_iff.mpr fatal
  · exact first
  · exact first

theorem Keeps.first {f : Tracing σ Node} {fs : List (Tracing σ Node)} (hf : Keeps f)
    (hfs : Keeps (Block.traced_first fs)) : Keeps (Block.traced_first (f :: fs)) :=
  fun s => sound_first (hf s) hfs

omit [Stream σ] in
theorem tries_first (f : Tracing σ Node) (fs : List (Tracing σ Node)) (s : σ) :
    .statement ∈ (Block.traced_first (f :: fs) s).1 := Logged.mem_bind List.mem_cons_self

/-- A loop whose head has a fatal error, which is lost. -/
def Lost (log : List (Event σ)) (ending : Ending) : Prop :=
  ∃ s e e', .header s ∈ log ∧ VarWithoutName s ∧ .fatal e ∈ log ∧ ending = .error e' ∧ e'.is_fatal_ = false

theorem keeps_lost {f g : Tracing σ Node} {fs : List (Tracing σ Node)}
    (hf : ∀ s, Sound (f s).1 (.of (f s).2) ∨ Lost (f s).1 (.of (f s).2))
    (hfs : Keeps (Block.traced_first (g :: fs))) : Keeps (Block.traced_first (f :: g :: fs)) := by
  intro s
  rcases hf s with sound | ⟨head, e, e', inside, nameless, fatal, ends, mild⟩
  · exact sound_first sound hfs
  · rcases run : f s with ⟨log, ⟨node, t⟩ | ⟨e₁, t⟩ | _ | _⟩ <;> rw [run] at ends inside fatal <;> cases ends
    have invoked : Tracing.invoke f s = (log, .err e' t) := by
      rw [Tracing.invoke, Logged.closing, run, Tracing.returned, if_neg (by simp [mild]), List.append_nil]
    have goes_on : Block.traced_first (f :: g :: fs) s =
        (.statement :: log ++ (Block.traced_first (g :: fs) t).1, (Block.traced_first (g :: fs) t).2) := by
      rw [Block.traced_first, Logged.run_bind, Logged.opening, Logged.attempt, Parser.attempt, Logged.plain,
        invoked]
      simp only [mild]
      rfl
    rw [goes_on]
    refine .broken head (.tail _ (List.mem_append_left _ inside)) nameless (.inl fun ordered => ?_)
    exact (List.pairwise_append.mp ordered).2.2 _ (.tail _ fatal) _ (tries_first g fs t)

end Rules

section Functions

variable {block : Tracing σ Block} {rounds : Nat}

theorem keeps_braced (hb : Keeps block) (msg : String) : Keeps (traced_braced block msg rounds) := by
  refine (keeps_quiet _).bind fun _ => (keeps_quiet _).bind fun _ => hb.attempt_bind (fun block => ?_) ?_
  · exact (keeps_quiet _).bind fun _ => keeps_pure _
  · exact fun e s => appended e _ s

theorem Function.keeps (hb : Keeps block) : Keeps (Function.traced block rounds) := by
  refine .guard fun start => (keeps_quiet _).bind fun _ => (keeps_quiet _).bind fun name => ?_
  refine (keeps_quiet _).bind fun _ => (keeps_quiet _).bind fun _ => (keeps_quiet _).bind fun args => ?_
  refine (keeps_quiet _).bind fun _ => (keeps_quiet _).bind fun returns => (keeps_quiet _).bind fun _ => ?_
  refine (keeps_quiet _).bind fun _ => hb.attempt_bind (fun block => ?_) fun e s => appended e _ s
  exact (keeps_quiet _).bind fun _ => (keeps_quiet _).bind fun _ => keeps_pure _

theorem If.keeps_branches (hb : Keeps block) (left : Nat) : Keeps (If.traced_branches block rounds left) := by
  induction left with
  | zero => exact keeps_quiet _
  | succ left ih =>
    refine (keeps_quiet _).bind fun r => ?_
    cases r with
    | error e => exact keeps_quiet _
    | ok cond =>
      refine (keeps_braced hb _).bind fun body => (keeps_quiet _).bind fun else_ => ?_
      split
      · refine (keeps_quiet _).bind fun _ => ?_
        split
        · exact keeps_quiet _
        · refine (keeps_quiet _).bind fun if_ => ?_
          split
          · exact (keeps_quiet _).bind fun _ => ih.bind fun rest => keeps_pure _
          · exact (keeps_braced hb _).bind fun tail => keeps_pure _
      · exact keeps_pure _

theorem If.keeps (hb : Keeps block) : Keeps (If.traced block rounds) :=
  .guard fun _ => (keeps_quiet _).bind fun _ => (If.keeps_branches hb 1000).bind fun _ =>
    (keeps_quiet _).bind fun _ => keeps_pure _

def Tries (p : Tracing σ α) : Prop := ∀ s, .statement ∈ (p s).1 ∨ .of (p s).2 = Ending.stuck

def Proceeds (p : Tracing σ α) : Prop :=
  ∀ s, .statement ∈ (p s).1 ∨ .of (p s).2 = Ending.stuck ∨
    ∃ e, .of (p s).2 = Ending.error e ∧ e.is_fatal_ = false

omit [Stream σ] in
theorem Proceeds.after {q : Parsing σ α} {f : α → Tracing σ β} (mild : Mild q) (hf : ∀ a, Proceeds (f a)) :
    Proceeds (Logged.quiet q >>= f) := by
  intro s
  have first := mild s
  rw [Logged.run_bind, Logged.quiet]
  cases run : q s with
  | ok a t => exact hf a t
  | err e t =>
    rw [run] at first
    exact .inr (.inr ⟨e, rfl, first⟩)
  | abort | out_of_fuel => exact .inr (.inl rfl)

omit [Stream σ] in
theorem Tries.attempt_bind {p : Tracing σ α} {g : Except Err α → Tracing σ β} (h : Tries p) :
    Proceeds (Logged.attempt p >>= g) := by
  intro s
  rcases h s with tried | stuck
  · exact .inl (Logged.mem_bind tried)
  · rw [Logged.run_bind, Logged.attempt, Parser.attempt, Logged.plain]
    rcases run : p s with ⟨log, _ | _ | _ | _⟩ <;> rw [run] at stuck <;> cases stuck
    · exact .inr (.inl rfl)
    · exact .inr (.inl rfl)

omit [Stream σ] in
theorem Proceeds.bind {p : Tracing σ α} {f : α → Tracing σ β} (h : Proceeds p) : Proceeds (p >>= f) := by
  intro s
  rcases h s with tried | stuck | ⟨e, ends, mild⟩
  · exact .inl (Logged.mem_bind tried)
  · rw [Logged.run_bind]
    rcases run : p s with ⟨log, _ | _ | _ | _⟩ <;> rw [run] at stuck <;> cases stuck
    · exact .inr (.inl rfl)
    · exact .inr (.inl rfl)
  · rw [Logged.run_bind]
    rcases run : p s with ⟨log, _ | _ | _ | _⟩ <;> rw [run] at ends <;> cases ends
    exact .inr (.inr ⟨e, rfl, mild⟩)

theorem proceeds_braced (ht : Tries block) (msg : String) : Proceeds (traced_braced block msg rounds) :=
  .after (mild_expect_token _) fun _ => .after (sure_skip_token _ _).raises fun _ => ht.attempt_bind

theorem For.proceeds (ht : Tries block) (start : Loc) (decl : Except Err Declaration) :
    Proceeds (For.traced_rest block rounds start decl) := by
  refine .after (mild_expect_token _) fun _ => .after (raises_attempt _) fun cond => ?_
  exact .after (mild_expect_token _) fun _ => .after (raises_attempt _) fun step => (proceeds_braced ht _).bind

theorem For.keeps_rest (hb : Keeps block) (start : Loc) (decl : Except Err Declaration) :
    Keeps (For.traced_rest block rounds start decl) := by
  refine (keeps_quiet _).bind fun _ => (keeps_quiet _).bind fun cond => (keeps_quiet _).bind fun _ => ?_
  refine (keeps_quiet _).bind fun step => (keeps_braced hb _).bind fun body => ?_
  exact (keeps_quiet _).bind fun end_ => keeps_pure _

omit [Stream σ] in
theorem returned_mild {r : Parse σ Err α} (h : ¬ Fatally r) : Tracing.returned r = [] := by
  cases r with
  | err e t =>
    rw [Tracing.returned, if_neg]
    exact fun fatal => h ⟨e, t, rfl, fatal⟩
  | ok | abort | out_of_fuel => rfl

theorem For.sound_head (hb : Keeps block) (ht : Tries block) (start : Loc) (s : σ) :
    Sound (For.traced_head block rounds start s).1 (.of (For.traced_head block rounds start s).2) ∨
      Lost (For.traced_head block rounds start s).1 (.of (For.traced_head block rounds start s).2) := by
  rw [For.traced_head, Logged.run_bind, Logged.opening, Logged.attempt, Parser.attempt, Logged.plain,
    Tracing.invoke, Logged.closing, Logged.quiet]
  by_cases nameless : VarWithoutName s
  · obtain ⟨e, t, run, fatal⟩ := Declaration.fatally_iff.mpr nameless
    rw [run, Tracing.returned, if_pos fatal]
    rcases For.proceeds ht start (.error e) t with tried | stuck | ⟨e', ends, mild⟩
    · refine .inl (.broken s (.head _) nameless (.inl fun ordered => ?_))
      exact (List.pairwise_append.mp ordered).2.2 _ (.tail _ (.head _)) _ tried
    · exact .inl (.broken s (.head _) nameless (.inr ⟨⟨e, .tail _ (.head _)⟩, stuck⟩))
    · exact .inr ⟨s, e, e', .head _, nameless, .tail _ (.head _), ends, mild⟩
  · have head : ∀ ending, Sound [.header s] ending := by
      refine fun ending => .kept (fun s' inside => ?_) ⟨List.pairwise_singleton _ _, fun e inside => ?_⟩
      · cases List.mem_singleton.mp inside
        exact nameless
      · cases List.mem_singleton.mp inside
    rw [returned_mild fun fatal => nameless (Declaration.fatally_iff.mp fatal)]
    cases run : Declaration.parse rounds s with
    | ok decl t => exact .inl ((head .value).append (by simp) (by simp) (For.keeps_rest hb start (.ok decl) t))
    | err e t => exact .inl ((head .value).append (by simp) (by simp) (For.keeps_rest hb start (.error e) t))
    | abort | out_of_fuel => exact .inl (head .stuck)

theorem For.keeps_or_loses (hb : Keeps block) (ht : Tries block) (s : σ) :
    Sound (For.traced block rounds s).1 (.of (For.traced block rounds s).2) ∨
      Lost (For.traced block rounds s).1 (.of (For.traced block rounds s).2) := by
  rw [For.traced, ending_guard]
  change Sound
      ((Logged.quiet (expect_token .For) >>= fun _ => For.traced_head block rounds (Stream.loc s)) s).1 _ ∨
    Lost
      ((Logged.quiet (expect_token .For) >>= fun _ => For.traced_head block rounds (Stream.loc s)) s).1 _
  rw [Logged.run_bind, Logged.quiet]
  cases expect_token .For s with
  | ok v t => exact For.sound_head hb ht (Stream.loc s) t
  | err | abort | out_of_fuel => exact .inl (sound_nil _)

theorem Block.keeps_first (hb : Keeps block) (ht : Tries block) :
    Keeps (Block.traced_first (Block.traced_funcs block rounds)) := by
  have typedef : Keeps (Block.traced_first
      [Logged.quiet (Node.Typedef <$> Typedef.parse rounds : Parsing σ Node)]) := .first (keeps_quiet _) (keeps_pure _)
  have loop : ∀ s, Sound (For.traced block rounds s).1 (.of (For.traced block rounds s).2) ∨
      Lost (For.traced block rounds s).1 (.of (For.traced block rounds s).2) := For.keeps_or_loses hb ht
  refine .first (keeps_quiet _) (.first (keeps_quiet _) (.first (keeps_quiet _) ?_))
  exact .first (If.keeps hb) (.first (Function.keeps hb) (.first (keeps_quiet _) (keeps_lost loop typedef)))

theorem Block.keeps_nodes (hb : Keeps block) (ht : Tries block) (left : Nat) :
    Keeps (Block.traced_nodes block rounds left) := by
  induction left with
  | zero => exact keeps_quiet _
  | succ left ih =>
    refine (keeps_quiet _).bind fun _ => .bind (Block.keeps_first hb ht) fun r => ?_
    · cases r with
      | none => exact keeps_pure _
      | some node => exact ih.bind fun nodes => keeps_pure _

theorem Block.tries_nodes (left : Nat) : Tries (Block.traced_nodes block rounds (left + 1)) := by
  intro s
  rw [Block.traced_nodes, Logged.run_bind, Logged.quiet]
  cases run : skip_token .Enl rounds s with
  | ok v t => exact .inl (Logged.mem_bind (tries_first _ _ t))
  | err e t => exact absurd run (sure_skip_token _ _).ne_err
  | abort | out_of_fuel => exact .inr rfl

omit [Stream σ] in
theorem Tries.bind {p : Tracing σ α} {f : α → Tracing σ β} (h : Tries p) : Tries (p >>= f) := by
  intro s
  rcases h s with tried | stuck
  · exact .inl (Logged.mem_bind tried)
  · rw [Logged.run_bind]
    rcases run : p s with ⟨log, _ | _ | _ | _⟩ <;> rw [run] at stuck <;> cases stuck
    · exact .inr rfl
    · exact .inr rfl

theorem Block.tries_body : Tries (Block.traced_body block rounds) := by
  intro s
  rw [Block.traced_body, ending_guard]
  exact (Block.tries_nodes 99999).bind s

theorem Block.keeps_tries (rounds : Nat) :
    Keeps (Block.traced rounds : Tracing σ Block) ∧ Tries (Block.traced rounds : Tracing σ Block) := by
  induction rounds with
  | zero => exact ⟨keeps_quiet _, fun _ => .inr rfl⟩
  | succ rounds ih =>
    obtain ⟨hb, ht⟩ := ih
    refine ⟨?_, ?_⟩
    · refine Keeps.invoke (.guard fun start => (Block.keeps_nodes hb ht 100000).bind fun nodes => ?_)
      exact (keeps_quiet _).bind fun end_ => keeps_pure _
    · exact fun s => (Block.tries_body s).imp_left (List.mem_append_left _)

theorem Root.keeps (rounds : Nat) : Keeps (Root.traced rounds : Tracing σ Root) := by
  refine .guard fun start => (Block.keeps_tries rounds).1.attempt_bind (fun block => ?_) fun e s => appended e _ s
  refine (keeps_quiet _).bind fun _ => (keeps_quiet _).bind fun _ => (keeps_quiet _).bind fun end_ => keeps_pure _

end Functions

/-- A fatal error ends the parse exactly if no head of a loop that is reached has a `var` without a
name. -/
theorem Root.fatal_ends_iff (rounds : Nat) (s : σ) :
    FatalEnds (Root.traced rounds s).1 (.of (Root.parse rounds s)) ↔ NamedHeads (Root.traced rounds s).1 := by
  have same : (Root.traced rounds s).2 = Root.parse rounds s := congrFun (Root.plain_traced rounds) s
  rw [← same]
  rcases Root.keeps rounds s with ⟨named, ends⟩ | ⟨head, inside, nameless, fails⟩
  · exact iff_of_true ends named
  · refine iff_of_false (fun ends => ?_) fun named => named head inside nameless
    rcases fails with unordered | ⟨⟨e, fatal⟩, stuck⟩
    · exact unordered ends.last
    · obtain ⟨e', ending, -⟩ := ends.first e fatal
      cases ending.symm.trans stuck

def Event.is_fatal : Event σ → Bool
  | .fatal _ => true
  | .statement | .header _ => false

def Ending.is_mild : Ending → Bool
  | .error e => !e.is_fatal_
  | .value | .stuck => false

/-- In `for var 5` the declaration fails fatally and the parse does not. -/
theorem Root.fatal_lost :
    (∃ e, .fatal e ∈ (Root.traced 4 (TokenStream.init (bytes "for var 5"))).1) ∧
      ∃ e t, Root.parse 4 (TokenStream.init (bytes "for var 5")) = .err e t ∧ e.is_fatal_ = false := by
  have found : (Root.traced 4 (TokenStream.init (bytes "for var 5"))).1.any Event.is_fatal = true := by
    decide +kernel
  have mild : (Ending.of (Root.parse 4 (TokenStream.init (bytes "for var 5")))).is_mild = true := by
    decide +kernel
  constructor
  · obtain ⟨x, inside, is_fatal⟩ := List.any_eq_true.mp found
    cases x with
    | fatal e => exact ⟨e, inside⟩
    | statement | header => cases is_fatal
  · cases run : Root.parse 4 (TokenStream.init (bytes "for var 5")) with
    | err e t =>
      rw [run] at mild
      exact ⟨e, t, rfl, (Bool.not_eq_true' _).mp mild⟩
    | ok | abort | out_of_fuel =>
      rw [run] at mild
      cases mild

end Mygo
