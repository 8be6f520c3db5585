import Mygo.Parser.Backtrack
import Mygo.Parser.Predict

namespace Mygo

open Parser

namespace Predict

/-- What the parse functions ask of a stream that is seen as a sequence of types. -/
structure Views {σ : Type} [Stream σ] (view : σ → List TokenType → Prop) : Prop where
  blank : view s [] → Stream.Peek s = none ∧ Stream.Next s = none
  sees : view s (T :: ts) → ∃ v t, Stream.Peek s = some (some v, t) ∧ v.type_ = T ∧ view t (T :: ts)
  moves : view s (T :: ts) → T ≠ .Enf → ts ≠ [] → ∃ t, Stream.Next s = some t ∧ view t ts
  ends : view s [T] → T ≠ .Enf → Stream.Next s = none
  stays : view s (.Enf :: ts) → ∃ t, Stream.Next s = some t ∧ view t (.Enf :: ts)
  loads : view s ts → view t us → view (Stream.Load t s) ts

section Macros

variable {σ α β : Type} [Stream σ] {view : σ → List TokenType → Prop} (views : Views view)
variable {a b : Terms TokenType} {q r : Kinds} {g : TokenType → Kinds} {T : TokenType}

theorem obeys_loc {f : Loc → Parsing σ β} (h : ∀ l, Obeys view b q (f l)) : Obeys view b q (loc >>= f) :=
  fun s => h (Stream.loc s) s

theorem obeys_fail (msg : String) : Obeys view a Reader.stopped (fail msg : Parsing σ α) :=
  obeys_loc fun _ => obeys_raise _

theorem obeys_fatal (msg : String) : Obeys view a Reader.stopped (fatal msg : Parsing σ α) :=
  obeys_loc fun _ => obeys_raise _

theorem obeys_append (e : Err) (msg : String) : Obeys view a Reader.stopped (append e msg : Parsing σ α) :=
  obeys_loc fun _ => obeys_raise _

theorem obeys_located (f : Loc → α) : Obeys view a .done (do let l ← loc; pure (f l) : Parsing σ α) :=
  obeys_loc fun _ => obeys_pure _

include views

theorem Views.guard {p : Loc → Parsing σ α} (h : ∀ start, Obeys view a q (p start)) :
    Rewinds view a q (guard p) :=
  Obeys.guarded (fun s => h (Stream.loc s) s) views.loads

theorem Views.peek {f : Option Value → Parsing σ β} (h : ∀ v, Obeys view b (g v.type_) (f (some v))) :
    Obeys view b (Reader.look g) (peek >>= f) := by
  intro s ts viewed
  cases ts with
  | nil =>
    have run : (Mygo.peek : Parsing σ _) s = .abort := by rw [Mygo.peek, (views.blank viewed).1]
    rw [bind_abort run]
    trivial
  | cons T rest =>
    obtain ⟨v, t, look, type, viewed'⟩ := views.sees viewed
    have run : Mygo.peek s = .ok (some v) t := by rw [Mygo.peek, look]
    rw [bind_ok run]
    subst type
    exact h v t _ viewed'

theorem Views.peeked {f : Value → Parsing σ β} (h : ∀ v, Obeys view b (g v.type_) (f v)) :
    Obeys view b (Reader.look g) (peeked >>= f) := by
  have inner : Mygo.peeked >>= f = Mygo.peek >>= fun o => o.elim crash f := by
    funext s
    rw [run_bind, run_bind, Mygo.peeked, run_bind]
    cases Mygo.peek s with
    | ok o t => cases o with
      | none | some => rfl
    | err | abort | out_of_fuel => rfl
  rw [inner]
  exact views.peek h

theorem Views.peeked_again {f : Value → Parsing σ β} (h : ∀ v, Obeys view b q (f v)) (blank : q [] = .overrun) :
    Obeys view b q (Mygo.peeked >>= f) := by
  have same : q = Reader.look fun _ => q := by
    funext ts
    cases ts with
    | nil => exact blank
    | cons => rfl
  rw [same]
  exact views.peeked h

theorem Views.peek_type {f : TokenType → Parsing σ β} (h : ∀ T, Obeys view b (g T) (f T)) :
    Obeys view b (Reader.look g) (peek_type >>= f) := by
  have inner : Mygo.peek_type >>= f = Mygo.peeked >>= fun v => f v.type_ := by
    funext s
    rw [run_bind, run_bind, Mygo.peek_type, run_bind]
    cases Mygo.peeked s with
    | ok | err | abort | out_of_fuel => rfl
  rw [inner]
  exact views.peeked fun v => h v.type_

theorem Views.is_token_run {s : σ} {T' : TokenType} {ts : List TokenType} (viewed : view s (T' :: ts)) :
    ∃ t, is_token T s = .ok (decide (T' = T)) t ∧ view t (T' :: ts) := by
  obtain ⟨v, t, look, -, viewed'⟩ := views.sees viewed
  obtain ⟨w, u, look', rfl, viewed''⟩ := views.sees viewed'
  have run : Mygo.peek s = .ok (some v) t := by rw [Mygo.peek, look]
  have again : Mygo.peeked t = .ok w u := by rw [Mygo.peeked, run_bind, Mygo.peek, look']; rfl
  refine ⟨u, ?_, viewed''⟩
  rw [Mygo.is_token, bind_ok run]
  exact bind_ok again

theorem Views.is_token_blank {s : σ} (viewed : view s []) : is_token T s = .abort := by
  have run : (Mygo.peek : Parsing σ _) s = .abort := by rw [Mygo.peek, (views.blank viewed).1]
  exact bind_abort run

theorem Views.is_token_or {f : Bool → Parsing σ β} (there : Obeys view b q (f true))
    (absent : Obeys view b r (f false)) :
    Obeys view b (Reader.look fun T' => if T' = T then q else r) (is_token T >>= f) := by
  intro s ts viewed
  cases ts with
  | nil =>
    rw [bind_abort (views.is_token_blank viewed)]
    trivial
  | cons T' rest =>
    obtain ⟨t, found, viewed'⟩ := views.is_token_run (T := T) viewed
    rw [bind_ok found, Reader.look]
    by_cases same : T' = T
    · rw [if_pos same, decide_eq_true same]
      exact there t _ viewed'
    · rw [if_neg same, decide_eq_false same]
      exact absent t _ viewed'

theorem Views.is_token {f : Bool → Parsing σ β} (there : Obeys view b q (f true))
    (absent : Obeys view b .done (f false)) :
    Obeys view b (Reader.optional (· = T) q) (is_token T >>= f) := by
  have same : Reader.optional (· = T) q = Reader.look fun T' => if T' = T then q else .done := by
    simp only [Reader.optional, decide_eq_true_eq]
  rw [same]
  exact views.is_token_or there absent

theorem Views.next : Obeys view .sharp take (next : Parsing σ Unit) := by
  intro s ts viewed
  rw [Mygo.next]
  cases ts with
  | nil =>
    rw [(views.blank viewed).2]
    trivial
  | cons T rest =>
    rw [take, Reader.next]
    by_cases last : T = .Enf
    · obtain ⟨t, move, viewed'⟩ := views.stays (last ▸ viewed)
      rw [move, if_pos (decide_eq_true last)]
      exact last ▸ viewed'
    · rw [if_neg (by simpa using last)]
      by_cases empty : rest = []
      · rw [views.ends (empty ▸ viewed) last, if_pos empty]
        trivial
      · obtain ⟨t, move, viewed'⟩ := views.moves viewed last empty
        rw [move, if_neg empty]
        exact viewed'

theorem Views.skip_token (rounds : Nat) :
    Obeys view .sharp (lines rounds) (skip_token .Enl rounds : Parsing σ Unit) := by
  induction rounds with
  | zero => exact obeys_spent
  | succ rounds ih => exact views.is_token (views.next.after fun _ => ih) (obeys_pure _)

theorem Views.skip_token_once (T : TokenType) :
    Obeys view .sharp (Reader.optional (· = T) take) (skip_token_once T : Parsing σ Unit) :=
  views.is_token views.next (obeys_pure _)

theorem Views.expect_with {error : String → Parsing σ Value} {null other : String}
    (stops : ∀ msg, Obeys view .sharp Reader.stopped (error msg)) :
    Obeys view .sharp (one T) (expect_with error null other T) := by
  have inner : one T = Reader.look fun _ => one T := by
    funext ts
    cases ts with
    | nil | cons => rfl
  rw [inner]
  refine views.peek fun _ => views.peeked fun v => ?_
  split
  · next same =>
    rw [if_pos (by simpa using same)]
    exact views.next.finish fun _ => obeys_pure _
  · next other =>
    rw [if_neg (by simpa using other)]
    exact stops _

theorem Views.expect_token : Obeys view .sharp (one T) (expect_token T : Parsing σ Value) :=
  views.expect_with obeys_fail

theorem Views.expect_token_fatal : Obeys view .sharp (one T) (expect_token_fatal T : Parsing σ Value) :=
  views.expect_with obeys_fatal

theorem Views.expect_token_err {err : String} :
    Obeys view .sharp (one T) (expect_token_err T err : Parsing σ Value) :=
  views.expect_with obeys_fail

end Macros

def called : Terms TokenType := ⟨fun rest => ∃ ts, rest = .LParent :: ts, False⟩

section Heads

variable {expr : Kinds} {rounds : Nat}

theorem heads_atom : Reader.Heads starts_expr (atom expr rounds) where
  blank := .inl rfl
  other T ts absent := by
    rw [starts_expr, Bool.or_eq_false_iff] at absent
    have kind : fits Expr.is_atomic (T :: ts) = .stop := by
      rw [fits, Reader.fits, Reader.look, absent.1]
      rfl
    rw [atom, Reader.look, if_neg (by simpa using absent.2), Reader.andThen, kind]
    exact .inl rfl

theorem one_other {T T' : TokenType} {ts : List TokenType} (other : T ≠ T') : one T' (T :: ts) = .stop := by
  rw [one, fits, Reader.fits, Reader.look, if_neg (by simpa using other), Reader.stopped]

def funcall (expr : Kinds) (rounds : Nat) : Kinds :=
  (fits Expr.is_atomic).andThen ((one .LParent).andThen ((args expr rounds).andThen (one .RParent)))

def operand : Kinds := Reader.look fun T => if T = .Sub then take.andThen (fits Expr.is_atomic)
  else fits Expr.is_atomic

theorem one_bars {T T' : TokenType} {ts : List TokenType} (r : Kinds) (other : T ≠ T') :
    ((one T').andThen r (T :: ts)).Gives .stop := by
  rw [Reader.andThen, one_other other]
  exact .inl rfl

theorem one_andThen (T : TokenType) (r : Kinds) :
    (one T).andThen r = Reader.look fun T' => if T' = T then take.andThen r else Reader.stopped := by
  funext ts
  cases ts with
  | nil => rfl
  | cons T' ts =>
    rw [Reader.look]
    split
    · next same =>
      subst same
      rw [Reader.andThen, one, fits, Reader.fits, Reader.look, if_pos (by simp)]
      rfl
    · next other =>
      rw [Reader.andThen, one_other other]
      rfl

theorem one_whole (T : TokenType) (ts : List TokenType) : one T ts ≠ .cut := by
  cases ts with
  | nil => simp [one, fits, Reader.fits, Reader.look]
  | cons T' rest =>
    rw [one, fits, Reader.fits, Reader.look]
    split
    · rw [Reader.next]
      split_ifs <;> simp
    · simp [Reader.stopped]

theorem andThen_whole {r : Kinds} (whole : ∀ ts, r ts ≠ .cut) (q : Kinds) (ts : List TokenType) :
    q.andThen r ts ≠ .cut := by
  rw [Reader.andThen]
  cases q ts with
  | done rest => exact whole rest
  | stop | cut | overrun | spent => simp [Reading.on]

theorem atom_again (expr : Kinds) (rounds : Nat) (ts : List TokenType) :
    (funcall expr rounds ts).on (operand ts) .stop .done = atom expr rounds ts ∨
      atom expr rounds ts = .cut ∧
        ∃ rest, (funcall expr rounds ts).on (operand ts) .stop .done = .done rest ∧ called.short rest := by
  match ts with
  | [] => exact .inl rfl
  | T :: us =>
    by_cases minus : T = .Sub
    · subst minus
      exact .inl rfl
    · cases atomic : Expr.is_atomic T with
      | false =>
        left
        simp [funcall, operand, atom, Reader.andThen, fits, Reader.fits, Reader.look, Reader.stopped, atomic,
          minus, Reading.on]
      | true =>
        have last : T ≠ .Enf := by
          rintro rfl
          cases atomic
        have first : ∀ us, fits Expr.is_atomic (T :: us) = if us = [] then .overrun else .done us := by
          intro us
          simp [fits, Reader.fits, Reader.look, Reader.next, atomic, last]
        have again : operand (T :: us) = fits Expr.is_atomic (T :: us) := by
          rw [operand, Reader.look, if_neg minus]
        rw [again, atom, Reader.look, if_neg minus, funcall, Reader.andThen, Reader.andThen, first]
        cases us with
        | nil => exact .inl rfl
        | cons T' us =>
          rw [if_neg (List.cons_ne_nil _ _)]
          simp only [Reading.on]
          by_cases opened : T' = .LParent
          · -- the rest of the call is read in the same way
            subst opened
            have whole : call_rest expr rounds (.LParent :: us) ≠ .cut :=
              andThen_whole (andThen_whole (one_whole .RParent) _) _ _
            have same : (one .LParent).andThen ((args expr rounds).andThen (one .RParent)) (.LParent :: us) =
                call_rest expr rounds (.LParent :: us) := rfl
            rw [Reader.optional_there rfl, same]
            cases rest : call_rest expr rounds (.LParent :: us) with
            | cut => exact absurd rest whole
            | stop => exact .inr ⟨rfl, _, rfl, us, rfl⟩
            | done | overrun | spent => exact .inl rfl
          · left
            rw [Reader.andThen, one_other opened]
            rw [Reader.optional_absent (by simpa using opened)]
            rfl

theorem heads_expr (rounds : Nat) : Reader.Heads starts_expr (Predict.expr rounds) := by
  cases rounds with
  | zero => exact Reader.heads_spent
  | succ rounds => exact ((heads_atom.andMore _).andMore _).andMore _

end Heads

section Expressions

variable {σ : Type} [Stream σ] {view : σ → List TokenType → Prop} (views : Views view)
variable {q : Kinds} {expr : Parsing σ Expr} (h : Rewinds view called q expr) (heads : Reader.Heads starts_expr q)
variable (rounds : Nat)

include views

theorem Views.parse_token : Rewinds view .sharp (fits Expr.is_atomic) (Expr.parse_token : Parsing σ Expr) := by
  refine views.guard fun start => views.peek fun v => .ite Iff.rfl (fun _ => ?_) fun _ => obeys_fail _
  exact views.next.finish fun _ => obeys_located _

theorem Views.parse_operand (start : Loc) (b : Bool) :
    Obeys view .sharp (fits Expr.is_atomic) (Expr.parse_operand start b : Parsing σ Expr) :=
  views.parse_token.obeys.attempt_finish id (fun _ => obeys_located _) fun _ => obeys_fail _

include h heads

def unclosed : Terms TokenType := ⟨fun rest => ∃ T ts, rest = T :: ts ∧ T ≠ .RParent, False⟩

theorem Views.parse_args : Obeys view unclosed (args q rounds) (Expr.parse_args expr rounds) := by
  induction rounds with
  | zero => exact obeys_spent
  | succ rounds ih =>
    have more : ∀ e, Obeys view unclosed (Reader.optional (· = .Comma) (take.andThen (args q rounds)))
        (do if ← Mygo.is_token .Comma then Mygo.next; let es ← Expr.parse_args expr rounds; pure (e :: es)
            else pure [e] : Parsing σ (List Expr)) := fun e =>
      views.is_token (views.next.after fun _ => ih.finish fun _ => obeys_pure _) (obeys_pure _)
    refine h.attempt_optional id heads more (fun _ => obeys_pure _) ?_ ?_
    · rintro T ts starts -
      exact ⟨T, ts, rfl, by rintro rfl; cases starts⟩
    · rintro e t _ viewed ⟨ts, rfl⟩
      exact (more e t _ viewed).shorten ⟨_, ts, rfl, nofun⟩

theorem Views.parse_funcall : Rewinds view .sharp (funcall q rounds) (Expr.parse_funcall expr rounds) := by
  refine views.guard fun start => views.parse_token.obeys.attempt_andThen (fun f => ?_) (fun _ => obeys_fail _)
    fun _ => False.elim
  refine views.expect_token.after fun _ => (views.parse_args h heads rounds).andThen (fun es => ?_) ?_
  · exact views.expect_token.finish fun _ => obeys_located _
  · rintro _ ⟨T, ts, rfl, other⟩
    exact .inl (one_other other)

theorem Views.parse_atomic : Rewinds view called (atom q rounds) (Expr.parse_atomic expr rounds) := by
  refine views.guard fun start s ts viewed => .again ((views.parse_funcall h heads rounds).attempt_or
    (fun fc => obeys_located _) (fun _ => views.peek_type fun T => .ite Iff.rfl (fun _ => ?_) fun _ => ?_) s ts viewed)
    (atom_again q rounds ts)
  · exact views.next.after fun _ => (views.parse_operand start true).sharp
  · exact (views.parse_operand start false).sharp

omit h heads in
theorem Views.parse_operators {is_op : TokenType → Bool} {o : Kinds} {operand : Parsing σ Expr} {msg : String}
    (h : Rewinds view called o operand) (other : is_op .LParent = false) :
    Obeys view called (operators is_op o rounds) (Expr.parse_operators is_op operand msg rounds) := by
  induction rounds with
  | zero => exact obeys_spent
  | succ rounds ih =>
    refine views.peek_type fun T => .ite Iff.rfl (fun _ => views.next.after fun _ => ?_) fun _ => obeys_pure _
    refine h.obeys.attempt_andMore id (fun e => ih.finish fun _ => obeys_pure _) (fun _ => obeys_fail _) ?_
    rintro _ ⟨ts, rfl⟩
    refine ⟨?_, ts, rfl⟩
    cases rounds with
    | zero => exact .inr rfl
    | succ rounds => exact .inl (Reader.optional_absent other)

omit h heads in
theorem Views.parse_chain {is_op : TokenType → Bool} {o : Kinds} {operand : Parsing σ Expr} {first_msg msg : String}
    (h : Rewinds view called o operand) (other : is_op .LParent = false) :
    Rewinds view called (chain is_op o rounds) (Expr.parse_chain is_op operand first_msg msg rounds) := by
  refine views.guard fun start => h.obeys.attempt_andMore id (fun e => ?_) (fun _ => obeys_fail _) ?_
  · refine views.peek_type fun T => .ite Iff.rfl (fun _ => ?_) fun _ => obeys_located _
    exact (views.parse_operators rounds h other).finish fun _ => obeys_located _
  · rintro _ ⟨ts, rfl⟩
    exact ⟨.inl (Reader.optional_absent other), ts, rfl⟩

theorem Views.parse_with_plus : Rewinds view called (sum q rounds) (Expr.parse_with_plus expr rounds) :=
  views.parse_chain rounds (views.parse_chain rounds (views.parse_atomic h heads rounds) rfl) rfl

theorem Views.parse_with_greater :
    Rewinds view called (comparison q rounds) (Expr.parse_with_greater expr rounds) := by
  have sums := views.parse_with_plus h heads rounds
  refine views.guard fun start => sums.obeys.attempt_andMore id (fun e => ?_) (fun _ => obeys_fail _) ?_
  · refine views.peek_type fun T => .ite Iff.rfl (fun _ => views.next.after fun _ => ?_) fun _ => obeys_located _
    exact sums.obeys.attempt_finish id (fun _ => obeys_located _) fun _ => obeys_fail _
  · rintro _ ⟨ts, rfl⟩
    exact ⟨.inl (Reader.optional_absent rfl), ts, rfl⟩

omit h heads in
theorem Views.parse_expr (rounds : Nat) : Rewinds view called (Predict.expr rounds) (Expr.parse rounds) := by
  induction rounds with
  | zero => exact ⟨obeys_spent, fun _ _ _ => trivial⟩
  | succ rounds ih => exact views.parse_with_greater ih (heads_expr rounds) rounds

end Expressions

section Types

variable {σ : Type} [Stream σ] {view : σ → List TokenType → Prop} (views : Views view) (rounds : Nat)

include views

theorem Views.parse_fields (left : Nat) :
    Obeys view .sharp (fields rounds left) (Struct.parse_fields rounds left : Parsing σ _) := by
  induction left with
  | zero => exact obeys_crash
  | succ left ih =>
    refine views.peeked fun first => .ite (by simp) (fun _ => views.next.after fun _ => ?_) fun _ => obeys_pure _
    rw [one_andThen]
    refine views.peeked fun second => .ite Iff.rfl (fun _ => views.next.after fun _ => ?_) fun _ => obeys_fail _
    refine views.expect_token.after fun _ => (views.skip_token rounds).after fun _ => ?_
    exact ih.finish fun _ => obeys_pure _

theorem Views.parse_struct : Rewinds view .sharp (struct rounds) (Struct.parse rounds : Parsing σ Struct) := by
  refine views.guard fun start => views.expect_token.after fun _ => views.expect_token.after fun _ => ?_
  refine (views.skip_token rounds).after fun _ => (views.parse_fields rounds 10000).after fun _ => ?_
  exact views.expect_token.finish fun _ => obeys_located _

def untyped : Terms TokenType := ⟨fun rest => ∃ ts, rest = .Struct :: ts, False⟩

omit views in
theorem type_again (ts : List TokenType) :
    (struct rounds ts).on (Reader.optional (· = .Symbol) take ts) .stop .done = Predict.type rounds ts ∨
      Predict.type rounds ts = .cut ∧
        ∃ rest, (struct rounds ts).on (Reader.optional (· = .Symbol) take ts) .stop .done = .done rest ∧
          untyped.short rest := by
  match ts with
  | [] => exact .inl rfl
  | T :: us =>
    rw [Predict.type, Reader.look]
    by_cases keyword : T = .Struct
    · subst keyword
      have whole : struct rounds (.Struct :: us) ≠ .cut :=
        andThen_whole (andThen_whole (andThen_whole (andThen_whole (one_whole .RBrace) _) _) _) _ _
      rw [if_pos rfl]
      cases read : struct rounds (.Struct :: us) with
      | cut => exact absurd read whole
      | stop => exact .inr ⟨rfl, _, rfl, us, rfl⟩
      | done | overrun | spent => exact .inl rfl
    · left
      have stop : struct rounds (T :: us) = .stop := by
        rw [struct, Reader.andThen, one_other keyword]
        rfl
      rw [if_neg keyword, stop]
      rfl

theorem Views.parse_type : Obeys view untyped (Predict.type rounds) (VarType.parse rounds : Parsing σ VarType) := by
  intro s ts viewed
  change ((attempt (Struct.parse rounds) >>= _) s).Arrives view untyped _
  refine .again ((views.parse_struct rounds).arrives_attempt viewed id (fun stct => obeys_located _)
    (fun e t _ _ viewed' => ?_) fun _ _ _ _ => False.elim) (type_again rounds ts)
  simp only
  cases ts with
  | nil =>
    rw [bind_abort (views.is_token_blank viewed')]
    trivial
  | cons T us =>
    obtain ⟨u, found, viewed''⟩ := views.is_token_run (T := .Symbol) viewed'
    rw [bind_ok found]
    by_cases symbol : T = .Symbol
    · rw [Reader.optional_there (by simpa using symbol), decide_eq_true symbol]
      have named : Obeys view untyped take (do
          let name ← Mygo.peeked
          Mygo.next
          let end_ ← loc
          pure ⟨Stream.loc s, end_, false, none, name.str_data_⟩ : Parsing σ VarType) :=
        views.peeked_again (fun name => (views.next.finish fun _ => obeys_located _).sharp) rfl
      exact named u _ viewed''
    · rw [Reader.optional_absent (by simpa using symbol), decide_eq_false symbol]
      exact views.loads viewed viewed''

theorem Views.parse_declaration :
    Rewinds view called (declaration rounds) (Declaration.parse rounds : Parsing σ Declaration) := by
  refine views.guard fun start => views.expect_token.after fun _ => views.expect_token_fatal.after fun v => ?_
  refine (views.parse_type rounds).attempt_sure id (sure_var_type rounds) (fun ty => ?_) ?_
  · refine views.expect_token.after fun _ => (views.parse_expr rounds).obeys.attempt_finish id ?_ ?_
    · exact fun _ => obeys_located _
    · exact fun _ => obeys_append _ _
  · rintro _ ⟨ts, rfl⟩
    exact one_bars _ nofun

theorem Views.parse_assignment :
    Rewinds view called (assignment rounds) (Assignment.parse rounds : Parsing σ Assignment) := by
  refine views.guard fun start => views.expect_token.after fun v => views.expect_token.after fun _ => ?_
  exact (views.parse_expr rounds).obeys.attempt_finish id (fun _ => obeys_located _) fun _ => obeys_append _ _

def returned : Terms TokenType :=
  ⟨fun rest => called.short rest ∨
    ∃ T ts, rest = T :: ts ∧ starts_expr T = true ∧ Predict.expr rounds rest = .stop, False⟩

theorem Views.parse_exprs (left : Nat) :
    Obeys view (returned rounds) (exprs rounds left) (Return.parse_exprs rounds left : Parsing σ _) := by
  induction left with
  | zero => exact obeys_crash
  | succ left ih =>
    have more : ∀ e : Expr, Obeys view (returned rounds) (exprs rounds left) (do
        let es ← Return.parse_exprs rounds left
        pure (e :: es) : Parsing σ (List Expr)) := fun e => ih.finish fun _ => obeys_pure _
    refine (views.parse_expr rounds).attempt_optional id (heads_expr rounds) more (fun _ => obeys_pure _) ?_ ?_
    · exact fun T ts starts stop => .inr ⟨T, ts, rfl, starts, stop⟩
    · rintro e t _ viewed ⟨ts, rfl⟩
      have rest := more e t _ viewed
      cases left with
      | zero => exact rest
      | succ left =>
        rw [exprs, Reader.optional_absent rfl] at rest
        exact rest.shorten (.inl ⟨ts, rfl⟩)

theorem Views.parse_return : Rewinds view (returned rounds) (ret rounds) (Return.parse rounds : Parsing σ Return) := by
  refine views.guard fun start => views.expect_token.after fun _ => ?_
  exact (views.parse_exprs rounds 100).finish fun _ => obeys_located _

theorem Views.parse_typedef : Rewinds view .sharp (typedef rounds) (Typedef.parse rounds : Parsing σ Typedef) := by
  refine views.guard fun start => views.expect_token.after fun _ => ?_
  refine (views.parse_type rounds).attempt_sure id (sure_var_type rounds) (fun ty => ?_) ?_
  · refine views.peeked fun name => .ite (by simp) (fun _ => ?_) fun _ => obeys_fatal _
    exact views.next.finish fun _ => obeys_located _
  · rintro _ ⟨ts, rfl⟩
    exact .inl (one_other nofun)

end Types

end Predict

end Mygo
