import Mygo.Parser.Fatal
import Mygo.Parser.Readings

namespace Mygo

open Parser

namespace Predict

section Statements

variable {σ : Type} [Stream σ] {view : σ → List TokenType → Prop} (views : Views view)
variable {q : Kinds} {block : Parsing σ Block} {rounds : Nat}

def broken : Terms TokenType :=
  ⟨fun rest => ∃ T ts, rest = T :: ts ∧ T ≠ .RBrace ∧ T ≠ .Enf ∧ T ≠ .Enl, True⟩

include views

theorem Views.parse_params (left : Nat) :
    Obeys view .sharp (params left) (Function.parse_args left : Parsing σ _) := by
  induction left with
  | zero => exact obeys_pure _
  | succ left ih =>
    refine views.peek_type fun T => .ite (by simp) (fun _ => ?_) fun _ => obeys_pure _
    refine views.expect_token_fatal.after fun _ => views.expect_token_fatal.after fun _ => ?_
    exact (views.skip_token_once .Comma).after fun _ => ih.finish fun _ => obeys_pure _

theorem Views.parse_returns (left : Nat) :
    Obeys view .sharp (returns left) (Function.parse_returns left : Parsing σ _) := by
  induction left with
  | zero => exact obeys_crash
  | succ left ih =>
    refine views.is_token (views.peeked_again (fun t => ?_) rfl) (obeys_pure _)
    exact views.next.after fun _ => ih.finish fun _ => obeys_pure _

variable (h : Rewinds view broken q block)

include h

theorem Views.parse_body {α : Type} {f : Block → Parsing σ α} {g : Err → Parsing σ α}
    (ok : ∀ b, Obeys view .sharp .done (f b)) (err : ∀ e, Obeys view .sharp Reader.stopped (g e)) :
    Obeys view .sharp ((lines rounds).andThen (q.andThen (one .RBrace))) (do
      Mygo.skip_token .Enl rounds
      match ← attempt block with
      | .error e => g e
      | .ok b => do
        let _ ← Mygo.expect_token .RBrace
        f b : Parsing σ α) := by
  refine (views.skip_token rounds).after fun _ => h.obeys.attempt_andThen (fun b => ?_) (fun e => err e) ?_
  · exact views.expect_token.finish fun _ => ok b
  · rintro _ ⟨T, ts, rfl, other, -, -⟩
    exact .inl (one_other other)

theorem Views.parse_braced {msg : String} : Obeys view .sharp (braced q rounds) (parse_braced block msg rounds) :=
  views.expect_token.after fun _ => views.parse_body h (fun b => obeys_pure b) fun _ =>
    obeys_loc fun _ => obeys_append _ _

theorem Views.parse_function : Rewinds view .sharp (function q rounds) (Function.parse block rounds) := by
  refine views.guard fun start => views.expect_token.after fun _ => views.peeked_again (fun name => ?_) rfl
  refine views.next.after fun _ => views.expect_token_fatal.after fun _ => ?_
  refine (views.parse_params 1000).after fun args => ?_
  refine views.expect_token_fatal.after fun _ => (views.parse_returns 99).after fun returns => ?_
  refine views.expect_token_err.after fun _ => views.parse_body h (fun b => obeys_located _) fun e => obeys_append _ _

omit views h in
theorem heads_braced : Reader.Heads (· = .LBrace) (braced q rounds) :=
  Reader.heads_fits.andThen _

theorem Views.parse_branches (left : Nat) :
    Obeys view .sharp (branches q rounds left) (If.parse_branches block rounds left) := by
  induction left with
  | zero => exact obeys_crash
  | succ left ih =>
    refine (views.parse_expr rounds).obeys.attempt_andThen (fun condition => ?_) (fun _ => obeys_fail _) ?_
    · refine (views.parse_braced h).after fun body => views.is_token (views.next.after fun _ => ?_) (obeys_pure _)
      refine .ite Iff.rfl (fun _ => obeys_crash) fun _ => views.is_token_or (views.next.after fun _ => ?_) ?_
      · exact ih.finish fun _ => obeys_pure _
      · exact (views.parse_braced h).finish fun _ => obeys_pure _
    · rintro _ ⟨ts, rfl⟩
      exact (heads_braced.andThen _).other _ _ rfl

theorem Views.parse_if : Rewinds view .sharp (if_ q rounds) (If.parse block rounds) := by
  refine views.guard fun start => views.expect_token.after fun _ => ?_
  exact (views.parse_branches h 1000).finish fun _ => obeys_located _

theorem Views.parse_for : Rewinds view .sharp (for_ q rounds) (For.parse block rounds) := by
  refine views.guard fun start => views.expect_token.after fun _ => ?_
  refine (views.parse_declaration rounds).attempt_maybe id (Reader.heads_fits.andThen _) (fun decl => ?_) ?_ ?_
  · refine views.expect_token.after fun _ => ?_
    refine (views.parse_expr rounds).attempt_maybe id (heads_expr rounds) (fun condition => ?_) ?_ ?_
    · refine views.expect_token.after fun _ => ?_
      refine (views.parse_assignment rounds).attempt_maybe id (Reader.heads_fits.andThen _) (fun step => ?_) ?_ ?_
      · exact (views.parse_braced h).finish fun _ => obeys_located _
      · intro T ts symbol
        obtain rfl : T = .Symbol := by simpa using symbol
        exact heads_braced.other _ _ rfl
      · rintro _ ⟨ts, rfl⟩
        exact heads_braced.other _ _ rfl
    · rintro T ts starts
      exact one_bars _ (by rintro rfl; cases starts)
    · rintro _ ⟨ts, rfl⟩
      exact one_bars _ nofun
  · intro T ts keyword
    obtain rfl : T = .Var := by simpa using keyword
    exact one_bars _ nofun
  · rintro _ ⟨ts, rfl⟩
    exact one_bars _ nofun

end Statements

section Blocks

variable {σ : Type} {view : σ → List TokenType → Prop}
variable {α : Type} {a : Terms TokenType} {q : Kinds} {p : Parsing σ α} {T : TokenType} {ts : List TokenType}
variable {f : Parsing σ Node} {fs gs : List (Parsing σ Node)}

/-- At this sequence there is an error that is not fatal, and the sequence is as it was. -/
def Passes (view : σ → List TokenType → Prop) (ts : List TokenType) (p : Parsing σ α) : Prop :=
  ∀ s, view s ts → (p s).Meets (fun _ _ => False) (fun e t => e.is_fatal_ = false ∧ view t ts) False True

theorem Passes.map {β : Type} {g : α → β} (h : Passes view ts p) : Passes view ts (g <$> p) :=
  fun s viewed => meets_bind (h s viewed) fun _ _ => False.elim

theorem passes_mild (h : Rewinds view a q p) (mild : Mild p) (stop : (q ts).Gives .stop) : Passes view ts p := by
  intro s viewed
  have arrives := (h.obeys s ts viewed).gives stop
  have rewinds := h.rewinds s ts viewed
  have raises := mild s
  cases run : p s with
  | ok | abort =>
    rw [run] at arrives
    exact arrives.elim
  | err e t =>
    rw [run] at rewinds raises
    exact ⟨raises, rewinds⟩
  | out_of_fuel => trivial

/-- What the inner loop of `Block::parse` comes to where one function comes to what the reader does. -/
def Picks (view : σ → List TokenType → Prop) (a : Terms TokenType) (ts : List TokenType) (o : Reading TokenType)
    (r : Parse σ Err (Option Node)) : Prop :=
  match o with
  | .done rest => r.Meets (fun x t => x.isSome = true ∧ view t rest) (fun _ _ => False) False True
  | .stop => r.Meets (fun x t => x = none ∧ view t ts) (fun _ t => ∃ us, view t us) False True
  | .cut => r.Meets (fun x t => x.isSome = true ∧ ∃ rest, view t rest ∧ a.short rest) (fun _ _ => False) False True
  | .overrun => r.Meets (fun _ _ => False) (fun _ _ => False) True True
  | .spent => r.Meets (fun _ _ => False) (fun _ _ => False) False True

theorem first_of_passed {s : σ} (pass : ∀ f ∈ fs, Passes view ts f) (viewed : view s ts) :
    (Block.first_of fs s).Meets (fun x t => x = none ∧ view t ts) (fun _ _ => False) False True := by
  induction fs generalizing s with
  | nil => exact ⟨rfl, viewed⟩
  | cons f fs ih =>
    obtain ⟨first, others⟩ := List.forall_mem_cons.mp pass
    refine meets_bind (meets_attempt (first s viewed)) ?_
    rintro (e | node) t post
    · simp only [post.1, Bool.false_eq_true, if_false]
      exact ih others post.2
    · exact post.elim

theorem picks_after {s : σ} {o : Reading TokenType} (pass : ∀ f ∈ fs, Passes view ts f)
    (h : ∀ t, view t ts → Picks view a ts o (Block.first_of gs t)) (viewed : view s ts) :
    Picks view a ts o (Block.first_of (fs ++ gs) s) := by
  induction fs generalizing s with
  | nil => exact h s viewed
  | cons f fs ih =>
    obtain ⟨first, others⟩ := List.forall_mem_cons.mp pass
    have reached := first s viewed
    rw [List.cons_append, Block.first_of, run_bind, attempt]
    cases run : f s with
    | err e t =>
      rw [run] at reached
      simp only [reached.1, Bool.false_eq_true, if_false]
      exact ih others reached.2
    | ok | abort =>
      rw [run] at reached
      exact reached.elim
    | out_of_fuel =>
      cases o with
      | done | stop | cut | overrun | spent => trivial

theorem picks_found {s : σ} (h : Rewinds view a q f) (sure : ¬ a.fails) (found : q ts ≠ .stop) (viewed : view s ts) :
    Picks view a ts (q ts) (Block.first_of (f :: fs) s) := by
  have arrives := h.obeys s ts viewed
  rw [Block.first_of, run_bind, attempt]
  cases run : f s with
  | ok node t =>
    rw [run] at arrives
    cases read : q ts with
    | done | cut =>
      rw [read] at arrives
      exact ⟨rfl, arrives⟩
    | stop | overrun | spent =>
      rw [read] at arrives
      exact arrives.elim
  | err e t =>
    rw [run] at arrives
    cases read : q ts with
    | stop => exact absurd read found
    | cut =>
      rw [read] at arrives
      exact absurd arrives.1 sure
    | done | overrun | spent =>
      rw [read] at arrives
      exact arrives.elim
  | abort =>
    rw [run] at arrives
    cases read : q ts with
    | overrun => trivial
    | done | stop | cut | spent =>
      rw [read] at arrives
      exact arrives.elim
  | out_of_fuel =>
    cases q ts with
    | done | stop | cut | overrun | spent => trivial

theorem picks_only {s : σ} (h : Rewinds view a q f) (sure : ¬ a.fails) (pass : ∀ f ∈ fs, Passes view ts f)
    (viewed : view s ts) : Picks view a ts (q ts) (Block.first_of (f :: fs) s) := by
  by_cases stop : q ts = .stop
  · have arrives := h.obeys s ts viewed
    have rewinds := h.rewinds s ts viewed
    rw [stop] at arrives ⊢
    rw [Block.first_of, run_bind, attempt]
    cases run : f s with
    | err e t =>
      rw [run] at rewinds
      simp only
      split
      · exact ⟨ts, rewinds⟩
      · exact (first_of_passed pass rewinds).mono (fun _ _ => id) (fun _ _ => False.elim) id id
    | ok | abort =>
      rw [run] at arrives
      exact arrives.elim
    | out_of_fuel => trivial
  · exact picks_found h sure stop viewed

theorem Picks.gives {o o' : Reading TokenType} {r : Parse σ Err (Option Node)} (h : Picks view a ts o r)
    (gives : o.Gives o') : Picks view a ts o' r := by
  rcases gives with rfl | rfl
  · exact h
  · cases r with
    | out_of_fuel =>
      cases o' with
      | done | stop | cut | overrun | spent => trivial
    | ok | err | abort => exact h.elim

theorem Picks.shorten {rest : List TokenType} {r : Parse σ Err (Option Node)} (h : Picks view a ts (.done rest) r)
    (short : a.short rest) : Picks view a ts .cut r :=
  Parse.Meets.mono h (fun _ _ ⟨found, viewed⟩ => ⟨found, rest, viewed, short⟩) (fun _ _ => id) id id

theorem Picks.arrives {b : Terms TokenType} {o misfit short : Reading TokenType} {r : Kinds} {s : σ}
    {p : Parsing σ (Option Node)} {g : Option Node → Parsing σ α} (h : Picks view a ts o (p s))
    (found : ∀ node t rest, view t rest → (g (some node) t).Arrives view b (r rest))
    (missed : ∀ t, view t ts → (g none t).Arrives view b misfit)
    (fatal : ∀ e t us, view t us → (.err e t : Parse σ Err α).Arrives view b misfit)
    (cut : ∀ node t rest, view t rest → a.short rest → (g (some node) t).Arrives view b short) :
    ((p >>= g) s).Arrives view b (o.on misfit short r) := by
  rw [run_bind]
  cases run : p s with
  | ok x t =>
    rw [run] at h
    cases o with
    | done rest =>
      obtain ⟨some_, viewed⟩ := h
      obtain ⟨node, rfl⟩ := Option.isSome_iff_exists.mp some_
      exact found node t rest viewed
    | stop =>
      obtain ⟨rfl, viewed⟩ := h
      exact missed t viewed
    | cut =>
      obtain ⟨some_, rest, viewed, left⟩ := h
      obtain ⟨node, rfl⟩ := Option.isSome_iff_exists.mp some_
      exact cut node t rest viewed left
    | overrun | spent => exact h.elim
  | err e t =>
    rw [run] at h
    cases o with
    | stop =>
      obtain ⟨us, viewed⟩ := h
      exact fatal e t us viewed
    | done | cut | overrun | spent => exact h.elim
  | abort =>
    rw [run] at h
    cases o with
    | overrun => trivial
    | done | stop | cut | spent => exact h.elim
  | out_of_fuel => exact Parse.arrives_spent

theorem picks_at {s : σ} (fs gs : List (Parsing σ Node)) (q : Kinds) (before : fs.Forall (Passes view ts))
    (h : Rewinds view a q f) (sure : ¬ a.fails) (behind : gs.Forall (Passes view ts)) (viewed : view s ts) :
    Picks view a ts (q ts) (Block.first_of (fs ++ f :: gs) s) :=
  picks_after (List.forall_iff_forall_mem.mp before) (fun _ => picks_only h sure (List.forall_iff_forall_mem.mp behind))
    viewed

variable [Stream σ] (views : Views view)

theorem mild_assignment (rounds : Nat) : Mild (Assignment.parse rounds : Parsing σ Assignment) := by
  refine Raises.guarded fun s => ?_
  refine ((mild_expect_token _).bind fun v => (mild_expect_token _).bind fun _ => ?_) s
  refine (Expr.mild_parse rounds).attempt_bind (fun expr => ?_) fun e mild => ?_
  · exact (sure_read _).raises.bind fun _ => raises_pure _
  · exact (sure_read _).raises.bind fun _ => raises_raise mild

variable (rounds : Nat)

def paused : Terms TokenType := ⟨fun rest => ∃ T ts, rest = T :: ts ∧
  (T = .LParent ∨ T = .Assign ∨ starts_expr T = true ∧ expr rounds rest = .stop), False⟩

theorem paused_called (ts : List TokenType) : called.short ts → (paused rounds).short ts := by
  rintro ⟨ts, rfl⟩
  exact ⟨_, ts, rfl, .inl rfl⟩

theorem paused_returned (ts : List TokenType) : (returned rounds).short ts → (paused rounds).short ts := by
  rintro (call | ⟨T, ts, rfl, starts, stop⟩)
  · exact paused_called rounds ts call
  · exact ⟨T, ts, rfl, .inr (.inr ⟨starts, stop⟩)⟩

theorem expr_symbol (ts : List TokenType) :
    (expr rounds (.Symbol :: .Assign :: ts)).Gives (.done (.Assign :: ts)) := by
  cases rounds with
  | zero => exact .inr rfl
  | succ rounds => exact .inl rfl

include views

theorem Views.passes_guard {K : TokenType} {f : Loc → Value → Parsing σ α} (other : T ≠ K) :
    Passes view (T :: ts) (Mygo.guard fun start => Mygo.expect_token K >>= f start) := by
  intro s viewed
  refine meets_guarded (meets_bind (Q := fun _ _ => False) ?_ fun _ _ => False.elim)
  have arrives := views.expect_token (T := K) s _ viewed
  have raises : ((Mygo.expect_token K : Parsing σ Value) s).Meets _ _ True True := mild_expect_token K s
  rw [one_other other] at arrives
  cases run : Mygo.expect_token K s with
  | ok | abort =>
    rw [run] at arrives
    exact arrives.elim
  | err e t =>
    rw [run] at arrives raises
    obtain ⟨us, viewed'⟩ := arrives
    exact ⟨raises, views.loads viewed viewed'⟩
  | out_of_fuel => trivial

theorem Views.passes_expr (absent : starts_expr T = false) :
    Passes view (T :: ts) (Node.Expr <$> Expr.parse rounds : Parsing σ Node) :=
  (passes_mild (views.parse_expr rounds) (Expr.mild_parse rounds) ((heads_expr rounds).other T ts absent)).map

structure Others (view : σ → List TokenType → Prop) (block : Parsing σ Block) (rounds : Nat) (T : TokenType)
    (ts : List TokenType) : Prop where
  decl : T ≠ .Var → Passes view (T :: ts) (Node.Declaration <$> Declaration.parse rounds)
  asgn : T ≠ .Symbol → Passes view (T :: ts) (Node.Assignment <$> Assignment.parse rounds)
  expr : starts_expr T = false → Passes view (T :: ts) (Node.Expr <$> Expr.parse rounds)
  cond : T ≠ .If → Passes view (T :: ts) (If.parse block rounds)
  func : T ≠ .Func → Passes view (T :: ts) (Function.parse block rounds)
  ret : T ≠ .Return → Passes view (T :: ts) (Node.Return <$> Return.parse rounds)
  loop : T ≠ .For → Passes view (T :: ts) (For.parse block rounds)
  alias_ : T ≠ .Typedef → Passes view (T :: ts) (Node.Typedef <$> Typedef.parse rounds)

theorem Views.others (block : Parsing σ Block) (T : TokenType) (ts : List TokenType) :
    Others view block rounds T ts where
  decl other := (views.passes_guard other).map
  asgn other := (views.passes_guard other).map
  expr := views.passes_expr rounds
  cond := views.passes_guard
  func := views.passes_guard
  ret other := (views.passes_guard other).map
  loop := views.passes_guard
  alias_ other := (views.passes_guard other).map

theorem Views.passes_all (block : Parsing σ Block) (absent : starts_stmt T = false) :
    (Block.parse_funcs block rounds).Forall (Passes view (T :: ts)) := by
  have others := views.others rounds block T ts
  have keyword : starts_expr T = false ∧ T ∉ [.Var, .If, .Func, .Return, .For, .Typedef] := by
    simpa [starts_stmt] using absent
  simp only [List.mem_cons, List.not_mem_nil, or_false, not_or] at keyword
  obtain ⟨operand, var, cond, func, ret, loop, alias_⟩ := keyword
  have symbol : T ≠ .Symbol := by
    rintro rfl
    cases operand
  exact ⟨others.decl var, others.asgn symbol, others.expr operand, others.cond cond, others.func func,
    others.ret ret, others.loop loop, others.alias_ alias_⟩

theorem Views.parse_expr_stmt : Rewinds view (paused rounds) (expr rounds) (Node.Expr <$> Expr.parse rounds) :=
  (views.parse_expr rounds).map.mono (paused_called rounds) id

section Symbols

variable {block : Parsing σ Block} {s : σ}

theorem Views.picks_assignment (block : Parsing σ Block) (viewed : view s (.Symbol :: ts))
    (found : assignment rounds (.Symbol :: ts) ≠ .stop) :
    Picks view (paused rounds) (.Symbol :: ts) (assignment rounds (.Symbol :: ts))
      (Block.first_of (Block.parse_funcs block rounds) s) := by
  have asgn : Rewinds view (paused rounds) (assignment rounds) (Node.Assignment <$> Assignment.parse rounds) :=
    (views.parse_assignment rounds).map.mono (paused_called rounds) id
  have decl : ∀ f ∈ (Block.parse_funcs block rounds).take 1, Passes view (.Symbol :: ts) f :=
    List.forall_mem_singleton.mpr ((views.others rounds block .Symbol ts).decl nofun)
  refine picks_after decl ?_ viewed
  exact fun t viewed' => picks_found asgn id found viewed'

theorem Views.picks_expr (block : Parsing σ Block) (viewed : view s (.Symbol :: ts))
    (stop : assignment rounds (.Symbol :: ts) = .stop) :
    Picks view (paused rounds) (.Symbol :: ts) (expr rounds (.Symbol :: ts))
      (Block.first_of (Block.parse_funcs block rounds) s) := by
  have others := views.others rounds block .Symbol ts
  have asgn : Passes view (.Symbol :: ts) (Assignment.parse rounds : Parsing σ Assignment) :=
    passes_mild (views.parse_assignment rounds) (mild_assignment rounds) (.inl stop)
  exact picks_at ((Block.parse_funcs block rounds).take 2) ((Block.parse_funcs block rounds).drop 3) (expr rounds)
    ⟨others.decl nofun, asgn.map⟩ (views.parse_expr_stmt rounds) id
    ⟨others.cond nofun, others.func nofun, others.ret nofun, others.loop nofun, others.alias_ nofun⟩ viewed

theorem Views.parse_symbol (viewed : view s (.Symbol :: ts)) :
    Picks view (paused rounds) (.Symbol :: ts) (symbol_stmt rounds (.Symbol :: ts))
    (Block.first_of (Block.parse_funcs block rounds) s) := by
  match ts with
  | [] => exact views.picks_assignment rounds block viewed nofun
  | T :: us =>
    by_cases assigned : T = .Assign
    · subst assigned
      rw [symbol_stmt]
      by_cases stop : assignment rounds (.Symbol :: .Assign :: us) = .stop
      · have read := (views.picks_expr rounds block viewed stop).gives (expr_symbol rounds us)
        rw [stop]
        exact read.shorten ⟨_, us, rfl, .inr (.inl rfl)⟩
      · have picks := views.picks_assignment rounds block viewed stop
        cases read : assignment rounds (.Symbol :: .Assign :: us) with
        | stop => exact absurd read stop
        | done | cut | overrun | spent =>
          rw [read] at picks
          exact picks
    · have stop : assignment rounds (.Symbol :: T :: us) = .stop := by
        have name : one .Symbol (.Symbol :: T :: us) = .done (T :: us) := rfl
        have value : (one .Assign).andThen (expr rounds) (T :: us) = .stop := by
          rw [Reader.andThen, one_other assigned]
          rfl
        rw [assignment, Reader.andThen, name]
        exact value
      have same : symbol_stmt rounds (.Symbol :: T :: us) = expr rounds (.Symbol :: T :: us) := by
        cases T with
        | Assign => exact absurd rfl assigned
        | _ => rfl
      rw [same]
      exact views.picks_expr rounds block viewed stop

end Symbols

variable {block : Parsing σ Block} (h : Rewinds view broken q block)

include h

theorem Views.parse_stmt {s : σ} (viewed : view s (T :: ts)) :
    Picks view (paused rounds) (T :: ts) (stmt q rounds (T :: ts))
      (Block.first_of (Block.parse_funcs block rounds) s) := by
  have others := views.others rounds block T ts
  let funcs := Block.parse_funcs block rounds
  cases T with
  | Symbol => exact views.parse_symbol rounds viewed
  | Var =>
    exact picks_at [] (funcs.drop 1) (declaration rounds) trivial
      ((views.parse_declaration rounds).map.mono (paused_called rounds) id) id
      ⟨others.asgn nofun, others.expr rfl, others.cond nofun, others.func nofun, others.ret nofun, others.loop nofun,
        others.alias_ nofun⟩ viewed
  | If =>
    exact picks_at (funcs.take 3) (funcs.drop 4) (if_ q rounds)
      ⟨others.decl nofun, others.asgn nofun, others.expr rfl⟩ ((views.parse_if h).mono (fun _ => False.elim) id) id
      ⟨others.func nofun, others.ret nofun, others.loop nofun, others.alias_ nofun⟩ viewed
  | Func =>
    exact picks_at (funcs.take 4) (funcs.drop 5) (function q rounds)
      ⟨others.decl nofun, others.asgn nofun, others.expr rfl, others.cond nofun⟩
      ((views.parse_function h).mono (fun _ => False.elim) id) id
      ⟨others.ret nofun, others.loop nofun, others.alias_ nofun⟩ viewed
  | Return =>
    exact picks_at (funcs.take 5) (funcs.drop 6) (ret rounds)
      ⟨others.decl nofun, others.asgn nofun, others.expr rfl, others.cond nofun, others.func nofun⟩
      ((views.parse_return rounds).map.mono (paused_returned rounds) id) id
      ⟨others.loop nofun, others.alias_ nofun⟩ viewed
  | For =>
    exact picks_at (funcs.take 6) (funcs.drop 7) (for_ q rounds)
      ⟨others.decl nofun, others.asgn nofun, others.expr rfl, others.cond nofun, others.func nofun, others.ret nofun⟩
      ((views.parse_for h).mono (fun _ => False.elim) id) id (others.alias_ nofun) viewed
  | Typedef =>
    exact picks_at (funcs.take 7) [] (typedef rounds)
      ⟨others.decl nofun, others.asgn nofun, others.expr rfl, others.cond nofun, others.func nofun, others.ret nofun,
        others.loop nofun⟩ ((views.parse_typedef rounds).map.mono (fun _ => False.elim) id) id trivial viewed
  | _ =>
    exact picks_at (funcs.take 2) (funcs.drop 3) (expr rounds) ⟨others.decl nofun, others.asgn nofun⟩
      (views.parse_expr_stmt rounds) id
      ⟨others.cond nofun, others.func nofun, others.ret nofun, others.loop nofun, others.alias_ nofun⟩ viewed

omit [Stream σ] views h in
theorem lines_other (ts : List TokenType) (other : T ≠ .Enl) : (lines rounds (T :: ts)).Gives (.done (T :: ts)) := by
  cases rounds with
  | zero => exact .inr rfl
  | succ rounds => exact .inl (Reader.optional_absent (by simpa using other))

omit [Stream σ] views h in
theorem stmt_stop (starts : starts_expr T = true) (stop : expr rounds (T :: ts) = .stop) :
    stmt q rounds (T :: ts) = .stop := by
  cases T with
  | Symbol =>
    match ts with
    | [] =>
      cases rounds with
      | zero | succ => cases stop
    | T' :: us =>
      by_cases assigned : T' = .Assign
      · subst assigned
        rcases expr_symbol rounds us with read | read <;> cases stop.symm.trans read
      · rw [← stop]
        cases T' with
        | Assign => exact absurd rfl assigned
        | _ => rfl
  | Var | If | Func | Return | For | Typedef => cases starts
  | _ => exact stop

omit [Stream σ] views h in
theorem arrives_paused {r : Parse σ Err α} {rest : List TokenType} {left : Nat} (short : (paused rounds).short rest)
    (comes : r.Arrives view broken (stmts q rounds left rest)) :
    r.Arrives view broken (if left = 0 then .overrun else .cut) := by
  cases left with
  | zero => exact comes
  | succ left =>
    obtain ⟨T, ts, rfl, kind⟩ := short
    have other : T ≠ .RBrace ∧ T ≠ .Enf ∧ T ≠ .Enl := by
      rcases kind with rfl | rfl | ⟨starts, -⟩
      · exact ⟨nofun, nofun, nofun⟩
      · exact ⟨nofun, nofun, nofun⟩
      · refine ⟨?_, ?_, ?_⟩ <;> rintro rfl <;> cases starts
    rw [if_neg (Nat.succ_ne_zero left)]
    rw [stmts, Reader.andThen] at comes
    rcases lines_other rounds ts other.2.2 with read | read
    · rw [read] at comes
      simp only [Reading.on] at comes
      rcases kind with rfl | rfl | ⟨starts, stop⟩
      · exact comes.shorten ⟨_, ts, rfl, other⟩
      · exact comes.shorten ⟨_, ts, rfl, other⟩
      · have stmt_starts : starts_stmt T = true := by
          rw [starts_stmt, starts]
          rfl
        rw [Reader.optional_there stmt_starts, stmt_stop rounds starts stop] at comes
        exact comes
    · rw [read] at comes
      exact comes.gives (.inr rfl)

theorem Views.parse_nodes (left : Nat) :
    Obeys view broken (stmts q rounds left) (Block.parse_nodes block rounds left) := by
  induction left with
  | zero => exact obeys_crash
  | succ left ih =>
    refine (views.skip_token rounds).after fun _ s ts viewed => ?_
    have more : ∀ node : Node, Obeys view broken (stmts q rounds left) (do
        let nodes ← Block.parse_nodes block rounds left
        pure (node :: nodes) : Parsing σ (List Node)) := fun node => ih.finish fun _ => obeys_pure _
    cases ts with
    | nil =>
      have picks : Picks view (paused rounds) [] .overrun (Block.first_of (Block.parse_funcs block rounds) s) :=
        picks_found (q := declaration rounds) ((views.parse_declaration rounds).map.mono (paused_called rounds) id) id
          nofun viewed
      rw [run_bind]
      cases run : Block.first_of (Block.parse_funcs block rounds) s with
      | ok | err =>
        rw [run] at picks
        exact picks.elim
      | abort | out_of_fuel => trivial
    | cons T us =>
      cases starts : starts_stmt T with
      | false =>
        rw [Reader.optional_absent starts]
        have passed := first_of_passed (List.forall_iff_forall_mem.mp (views.passes_all rounds block starts)) viewed
        rw [run_bind]
        cases run : Block.first_of (Block.parse_funcs block rounds) s with
        | ok x t =>
          rw [run] at passed
          obtain ⟨rfl, viewed'⟩ := passed
          exact viewed'
        | err | abort =>
          rw [run] at passed
          exact passed.elim
        | out_of_fuel => trivial
      | true =>
        have ending : broken.short (T :: us) := by
          refine ⟨T, us, rfl, ?_, ?_, ?_⟩ <;> rintro rfl <;> cases starts
        rw [Reader.optional_there starts]
        refine (views.parse_stmt rounds h viewed).arrives (fun node => more node) ?_ ?_ ?_
        · exact fun t viewed' => ⟨_, viewed', ending⟩
        · exact fun e t us viewed' => ⟨trivial, us, viewed'⟩
        · exact fun node t rest viewed' short => arrives_paused rounds short (more node t rest viewed')

omit h in
theorem Views.parse_block : Rewinds view broken (Predict.block rounds) (Block.parse rounds) := by
  induction rounds with
  | zero => exact ⟨obeys_spent, fun _ _ _ => trivial⟩
  | succ rounds ih =>
    exact views.guard fun start => (views.parse_nodes rounds ih 100000).finish fun nodes => obeys_located _

omit h in
theorem Views.parse_root : Obeys view .sharp (Predict.root rounds) (Root.parse rounds) := by
  refine (views.guard fun start => (views.parse_block rounds).obeys.attempt_andThen (fun block => ?_) ?_ ?_).obeys
  · exact (views.skip_token rounds).after fun _ => views.expect_token.finish fun _ => obeys_located _
  · exact fun _ => obeys_append _ _
  · rintro _ ⟨T, ts, rfl, -, last, line⟩
    rw [Reader.andThen]
    rcases lines_other rounds ts line with read | read
    · rw [read]
      exact .inl (one_other last)
    · rw [read]
      exact .inr rfl

end Blocks

end Predict

end Mygo
