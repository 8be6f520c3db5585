import Mygo.Parser.Defs

namespace Mygo

open Parser

variable {T : TokenType} {t : Value} {ts : List Value} {α : Type}

@[simp] theorem peek_cons : peek ⟨t :: ts⟩ = .ok (some t) (⟨t :: ts⟩ : Tokens) := rfl

@[simp] theorem peeked_cons : peeked ⟨t :: ts⟩ = .ok t (⟨t :: ts⟩ : Tokens) := rfl

@[simp] theorem peek_type_cons : peek_type ⟨t :: ts⟩ = .ok t.type_ (⟨t :: ts⟩ : Tokens) := rfl

@[simp] theorem loc_eq (s : Tokens) : loc s = .ok .init s := rfl

@[simp] theorem is_token_cons :
    is_token T ⟨t :: ts⟩ = .ok (decide (t.type_ = T)) (⟨t :: ts⟩ : Tokens) := rfl

theorem next_cons (inside : ¬ t.type_ = .Enf) (more : ¬ ts = []) :
    next ⟨t :: ts⟩ = .ok () (⟨ts⟩ : Tokens) := by
  simp [next, Stream.Next, Tokens.Next, inside, more]

@[simp] theorem fail_eq (msg : String) (s : Tokens) :
    (fail msg : Parsing Tokens α) s = .err (.make .init msg) s := rfl

@[simp] theorem fatal_eq (msg : String) (s : Tokens) :
    (fatal msg : Parsing Tokens α) s = .err (.Fatal .init msg) s := rfl

@[simp] theorem append_eq (e : Err) (msg : String) (s : Tokens) :
    (append e msg : Parsing Tokens α) s = .err (e.Append .init msg) s := rfl

theorem guard_ok {p : Loc → Parsing Tokens α} {a : α} {s s' : Tokens} (h : p .init s = .ok a s') :
    guard p s = .ok a s' :=
  guarded_ok h

theorem guard_err {p : Loc → Parsing Tokens α} {e : Err} {s s' : Tokens}
    (h : p .init s = .err e s') : guard p s = .err e s :=
  guarded_err h

theorem skip_token_stop {rounds : Nat} (other : ¬ t.type_ = T) :
    skip_token T (rounds + 1) ⟨t :: ts⟩ = .ok () (⟨t :: ts⟩ : Tokens) := by
  simp [skip_token, run_bind, other]

theorem skip_token_cons {rounds : Nat} (same : t.type_ = T) (inside : ¬ T = .Enf) (more : ¬ ts = []) :
    skip_token T (rounds + 1) ⟨t :: ts⟩ = skip_token T rounds (⟨ts⟩ : Tokens) := by
  simp [skip_token, run_bind, same, next_cons (same ▸ inside) more]

section Expect

variable {error : String → Parsing Tokens Value} {null other : String}

theorem expect_with_ok (same : t.type_ = T) (inside : ¬ T = .Enf) (more : ¬ ts = []) :
    expect_with error null other T ⟨t :: ts⟩ = .ok t (⟨ts⟩ : Tokens) := by
  simp [expect_with, run_bind, same, next_cons (same ▸ inside) more]

theorem expect_with_other (differs : ¬ t.type_ = T) :
    expect_with error null other T ⟨t :: ts⟩ = error other (⟨t :: ts⟩ : Tokens) := by
  simp [expect_with, run_bind, differs]

end Expect

theorem expect_token_ok (same : t.type_ = T) (inside : ¬ T = .Enf) (more : ¬ ts = []) :
    expect_token T ⟨t :: ts⟩ = .ok t (⟨ts⟩ : Tokens) :=
  expect_with_ok same inside more

theorem expect_token_other (differs : ¬ t.type_ = T) :
    expect_token T ⟨t :: ts⟩ =
      .err (.make .init ("expect token " ++ T.stringized)) (⟨t :: ts⟩ : Tokens) :=
  expect_with_other differs

theorem expect_token_fatal_ok (same : t.type_ = T) (inside : ¬ T = .Enf) (more : ¬ ts = []) :
    expect_token_fatal T ⟨t :: ts⟩ = .ok t (⟨ts⟩ : Tokens) :=
  expect_with_ok same inside more

theorem expect_token_err_ok {err : String} (same : t.type_ = T) (inside : ¬ T = .Enf)
    (more : ¬ ts = []) : expect_token_err T err ⟨t :: ts⟩ = .ok t (⟨ts⟩ : Tokens) :=
  expect_with_ok same inside more

namespace Expr

theorem atomic_inside {v : Value} (atomic : is_atomic v.type_ = true) : v.type_ ≠ .Enf := by
  intro h
  rw [h] at atomic
  cases atomic

theorem parse_token_ok {v : Value} (atomic : is_atomic v.type_ = true) (more : ¬ ts = []) :
    parse_token ⟨v :: ts⟩ = .ok (.TOKEN .init .init v) (⟨ts⟩ : Tokens) := by
  apply guard_ok
  rw [bind_ok peek_cons]
  simp only [atomic, if_true]
  rw [bind_ok (next_cons (atomic_inside atomic) more)]
  rfl

theorem parse_token_other (other : is_atomic t.type_ = false) :
    parse_token ⟨t :: ts⟩ = .err (.make .init "parse tk error") (⟨t :: ts⟩ : Tokens) := by
  apply guard_err
  rw [bind_ok peek_cons]
  simp only [other]
  rfl

variable {expr : Parsing Tokens Expr} {rounds : Nat} {v : Value}

theorem parse_funcall_other (other : is_atomic t.type_ = false) :
    parse_funcall expr rounds ⟨t :: ts⟩ = .err (.make .init "expect err") (⟨t :: ts⟩ : Tokens) := by
  apply guard_err
  rw [bind_ok (attempt_err (parse_token_other other))]
  rfl

theorem parse_funcall_token (atomic : is_atomic v.type_ = true) (no_call : t.type_ ≠ .LParent) :
    parse_funcall expr rounds ⟨v :: t :: ts⟩ =
      .err (.make .init ("expect token " ++ TokenType.LParent.stringized))
        (⟨v :: t :: ts⟩ : Tokens) := by
  apply guard_err
  rw [bind_ok (attempt_ok (parse_token_ok atomic (List.cons_ne_nil t ts)))]
  exact bind_err (expect_token_other no_call)

theorem parse_funcall_ok {l r : Value} {us : List Value} {args : List Expr}
    (atomic : is_atomic v.type_ = true) (left : l.type_ = .LParent) (right : r.type_ = .RParent)
    (inner : ts ≠ []) (more : us ≠ []) (h : parse_args expr rounds ⟨ts⟩ = .ok args ⟨r :: us⟩) :
    parse_funcall expr rounds ⟨v :: l :: ts⟩ =
      .ok (.FUNCALL .init .init (.TOKEN .init .init v :: args)) (⟨us⟩ : Tokens) := by
  apply guard_ok
  rw [bind_ok (attempt_ok (parse_token_ok atomic (List.cons_ne_nil l ts)))]
  simp only
  rw [bind_ok (expect_token_ok left nofun inner), bind_ok h, bind_ok (expect_token_ok right nofun more)]
  rfl

theorem parse_atomic_call {f : Expr} {us : List Value}
    (h : parse_funcall expr rounds ⟨ts⟩ = .ok f ⟨us⟩) :
    parse_atomic expr rounds ⟨ts⟩ = .ok (f.setLoc .init .init) (⟨us⟩ : Tokens) := by
  apply guard_ok
  rw [bind_ok (attempt_ok h)]
  rfl

theorem parse_atomic_token (atomic : is_atomic v.type_ = true) (no_call : t.type_ ≠ .LParent) :
    parse_atomic expr rounds ⟨v :: t :: ts⟩ =
      .ok (.TOKEN .init .init v) (⟨t :: ts⟩ : Tokens) := by
  have no_sub : v.type_ ≠ .Sub := by
    intro h
    rw [h] at atomic
    cases atomic
  apply guard_ok
  rw [bind_ok (attempt_err (parse_funcall_token atomic no_call))]
  simp only
  rw [bind_ok peek_type_cons, if_neg no_sub, parse_operand,
    bind_ok (attempt_ok (parse_token_ok atomic (List.cons_ne_nil t ts)))]
  rfl

theorem parse_atomic_minus {m : Value} (minus : m.type_ = .Sub) (atomic : is_atomic v.type_ = true)
    (more : ¬ ts = []) :
    parse_atomic expr rounds ⟨m :: v :: ts⟩ =
      .ok (.OPS .init .init [.Sub] [.TOKEN .init .init v]) (⟨ts⟩ : Tokens) := by
  have other : is_atomic m.type_ = false := by rw [minus]; rfl
  apply guard_ok
  rw [bind_ok (attempt_err (parse_funcall_other other))]
  simp only
  rw [bind_ok peek_type_cons, if_pos minus,
    bind_ok (next_cons (by rw [minus]; nofun) (List.cons_ne_nil v ts)), parse_operand,
    bind_ok (attempt_ok (parse_token_ok atomic more))]
  rfl

def begins (t : TokenType) : Bool := is_atomic t || t = .Sub

theorem parse_atomic_other (other : begins t.type_ = false) :
    parse_atomic expr rounds ⟨t :: ts⟩ =
      .err (.make .init "parse atomic error") (⟨t :: ts⟩ : Tokens) := by
  simp only [begins, Bool.or_eq_false_iff, decide_eq_false_iff_not] at other
  apply guard_err
  rw [bind_ok (attempt_err (parse_funcall_other other.1))]
  simp only
  rw [bind_ok peek_type_cons, if_neg other.2, parse_operand,
    bind_ok (attempt_err (parse_token_other other.1))]
  rfl

theorem parse_chain_err {is_op : TokenType → Bool} {operand : Parsing Tokens Expr}
    {first_msg msg : String} {e : Err} {s s' : Tokens} (h : operand s = .err e s') :
    parse_chain is_op operand first_msg msg rounds s = .err (.make .init first_msg) s := by
  apply guard_err
  rw [bind_ok (attempt_err h)]
  rfl

section Chain

variable {is_op : TokenType → Bool} {operand : Parsing Tokens Expr} {first_msg msg : String}
  {s s' : Tokens} {e : Expr}

theorem parse_chain_single (h : operand s = .ok e ⟨t :: ts⟩) (stop : is_op t.type_ = false) :
    parse_chain is_op operand first_msg msg rounds s = .ok (e.setLoc .init .init) ⟨t :: ts⟩ := by
  apply guard_ok
  rw [bind_ok (attempt_ok h)]
  simp only
  rw [bind_ok peek_type_cons, if_neg (by simp [stop])]
  rfl

theorem parse_chain_ok {ops : List TokenType} {es : List Expr} (h : operand s = .ok e ⟨t :: ts⟩)
    (op : is_op t.type_ = true)
    (rest : parse_operators is_op operand msg rounds ⟨t :: ts⟩ = .ok (ops, es) s') :
    parse_chain is_op operand first_msg msg rounds s = .ok (.OPS .init .init ops (e :: es)) s' := by
  apply guard_ok
  rw [bind_ok (attempt_ok h)]
  simp only
  rw [bind_ok peek_type_cons, if_pos op, bind_ok rest]
  rfl

theorem parse_operators_stop (stop : is_op t.type_ = false) :
    parse_operators is_op operand msg (rounds + 1) ⟨t :: ts⟩ = .ok ([], []) (⟨t :: ts⟩ : Tokens) := by
  rw [parse_operators, bind_ok peek_type_cons, if_neg (by simp [stop])]
  rfl

theorem parse_operators_cons {ops : List TokenType} {es : List Expr} (op : is_op t.type_ = true)
    (inside : ¬ t.type_ = .Enf) (more : ¬ ts = []) (h : operand ⟨ts⟩ = .ok e s)
    (rest : parse_operators is_op operand msg rounds s = .ok (ops, es) s') :
    parse_operators is_op operand msg (rounds + 1) ⟨t :: ts⟩ = .ok (t.type_ :: ops, e :: es) s' := by
  rw [parse_operators, bind_ok peek_type_cons, if_pos op, bind_ok (next_cons inside more),
    bind_ok (attempt_ok h)]
  simp only
  rw [bind_ok rest]
  rfl

end Chain

theorem parse_single {s : Tokens} {e : Expr}
    (h : parse_with_plus (parse rounds) rounds s = .ok e ⟨t :: ts⟩)
    (stop : is_greater t.type_ = false) :
    parse (rounds + 1) s = .ok (e.setLoc .init .init) ⟨t :: ts⟩ := by
  rw [parse]
  apply guard_ok
  rw [bind_ok (attempt_ok h)]
  simp only
  rw [bind_ok peek_type_cons, if_neg (by simp [stop])]
  rfl

theorem parse_compared {s s' : Tokens} {a b : Expr}
    (h : parse_with_plus (parse rounds) rounds s = .ok a ⟨t :: ts⟩) (op : is_greater t.type_ = true)
    (more : ¬ ts = []) (h' : parse_with_plus (parse rounds) rounds ⟨ts⟩ = .ok b s') :
    parse (rounds + 1) s = .ok (.OPS .init .init [t.type_] [a, b]) s' := by
  have inside : t.type_ ≠ .Enf := by
    intro enf
    rw [enf] at op
    cases op
  rw [parse]
  apply guard_ok
  rw [bind_ok (attempt_ok h)]
  simp only
  rw [bind_ok peek_type_cons, if_pos op, bind_ok (next_cons inside more), bind_ok (attempt_ok h')]
  rfl

section Args

variable {s : Tokens} {e : Expr}

theorem parse_args_nil {error : Err} (h : expr ⟨t :: ts⟩ = .err error ⟨t :: ts⟩) :
    parse_args expr (rounds + 1) ⟨t :: ts⟩ = .ok [] (⟨t :: ts⟩ : Tokens) := by
  rw [parse_args, bind_ok (attempt_err h)]
  rfl

theorem parse_args_last (h : expr s = .ok e ⟨t :: ts⟩) (last : t.type_ ≠ .Comma) :
    parse_args expr (rounds + 1) s = .ok [e] (⟨t :: ts⟩ : Tokens) := by
  rw [parse_args, bind_ok (attempt_ok h)]
  simp only
  rw [bind_ok is_token_cons, if_neg (by simp [last])]
  rfl

theorem parse_args_cons {es : List Expr} {s' : Tokens} (h : expr s = .ok e ⟨t :: ts⟩)
    (comma : t.type_ = .Comma) (more : ¬ ts = []) (rest : parse_args expr rounds ⟨ts⟩ = .ok es s') :
    parse_args expr (rounds + 1) s = .ok (e :: es) s' := by
  rw [parse_args, bind_ok (attempt_ok h)]
  simp only
  rw [bind_ok is_token_cons, if_pos (by simp [comma]),
    bind_ok (next_cons (by rw [comma]; nofun) more), bind_ok rest]
  rfl

end Args

theorem parse_other (other : begins t.type_ = false) :
    parse (rounds + 1) ⟨t :: ts⟩ = .err (.make .init "parse expr error") (⟨t :: ts⟩ : Tokens) := by
  have plus : parse_with_plus (parse rounds) rounds (⟨t :: ts⟩ : Tokens) =
      .err (.make .init "parse expr with error") ⟨t :: ts⟩ :=
    parse_chain_err (parse_chain_err (parse_atomic_other other))
  rw [parse]
  apply guard_err
  rw [bind_ok (attempt_err plus)]
  rfl

end Expr

/-- The parser fails here, and the next alternative is tried. -/
def Refuses (p : Parsing Tokens α) (s : Tokens) : Prop :=
  ∃ e, p s = .err e s ∧ e.is_fatal_ = false

theorem Refuses.map {β : Type} {p : Parsing Tokens α} {s : Tokens} {g : α → β} (h : Refuses p s) :
    Refuses (g <$> p) s :=
  let ⟨e, refused, soft⟩ := h
  ⟨e, map_err refused, soft⟩

theorem refuses_head {p : Loc → Parsing Tokens α} {f : Loc → Value → Parsing Tokens α}
    (head : ∀ l, p l = expect_token T >>= f l) (other : ¬ t.type_ = T) :
    Refuses (guard p) ⟨t :: ts⟩ := by
  refine ⟨.make .init ("expect token " ++ T.stringized), ?_, rfl⟩
  apply guard_err
  rw [head]
  exact bind_err (expect_token_other other)

section Statements

variable {rounds : Nat} {block : Parsing Tokens Block}

theorem Declaration.refuses (other : t.type_ ≠ .Var) :
    Refuses (Declaration.parse rounds) ⟨t :: ts⟩ :=
  refuses_head (fun _ => rfl) other

theorem Assignment.refuses (other : t.type_ ≠ .Symbol) :
    Refuses (Assignment.parse rounds) ⟨t :: ts⟩ :=
  refuses_head (fun _ => rfl) other

theorem Assignment.refuses_symbol {u : Value} (symbol : t.type_ = .Symbol)
    (other : u.type_ ≠ .Assign) : Refuses (Assignment.parse rounds) ⟨t :: u :: ts⟩ := by
  refine ⟨.make .init ("expect token " ++ TokenType.Assign.stringized), ?_, rfl⟩
  apply guard_err
  rw [bind_ok (expect_token_ok symbol nofun (List.cons_ne_nil u ts))]
  exact bind_err (expect_token_other other)

theorem Expr.refuses (other : Expr.begins t.type_ = false) :
    Refuses (Expr.parse (rounds + 1)) ⟨t :: ts⟩ :=
  ⟨_, Expr.parse_other other, rfl⟩

theorem If.refuses (other : t.type_ ≠ .If) : Refuses (If.parse block rounds) ⟨t :: ts⟩ :=
  refuses_head (fun _ => rfl) other

theorem Function.refuses (other : t.type_ ≠ .Func) :
    Refuses (Function.parse block rounds) ⟨t :: ts⟩ :=
  refuses_head (fun _ => rfl) other

theorem Return.refuses (other : t.type_ ≠ .Return) : Refuses (Return.parse rounds) ⟨t :: ts⟩ :=
  refuses_head (fun _ => rfl) other

theorem For.refuses (other : t.type_ ≠ .For) : Refuses (For.parse block rounds) ⟨t :: ts⟩ :=
  refuses_head (fun _ => rfl) other

theorem Typedef.refuses (other : t.type_ ≠ .Typedef) : Refuses (Typedef.parse rounds) ⟨t :: ts⟩ :=
  refuses_head (fun _ => rfl) other

theorem Struct.refuses (other : t.type_ ≠ .Struct) : Refuses (Struct.parse rounds) ⟨t :: ts⟩ :=
  refuses_head (fun _ => rfl) other

namespace Block

theorem first_of_refused {f : Parsing Tokens Node} {fs : List (Parsing Tokens Node)} {s : Tokens}
    (h : Refuses f s) : first_of (f :: fs) s = first_of fs s := by
  obtain ⟨e, refused, soft⟩ := h
  rw [first_of, bind_ok (attempt_err refused)]
  simp [soft]

theorem first_of_ok {f : Parsing Tokens Node} {fs : List (Parsing Tokens Node)} {s s' : Tokens}
    {node : Node} (h : f s = .ok node s') : first_of (f :: fs) s = .ok (some node) s' := by
  rw [first_of, bind_ok (attempt_ok h)]
  rfl

def closes (t : TokenType) : Bool :=
  !Expr.begins t && t != .Var && t != .If && t != .Func && t != .Return && t != .Typedef && t != .For

theorem first_of_keyword (keyword : Expr.begins t.type_ = false) (decl : t.type_ ≠ .Var) :
    first_of (parse_funcs block (rounds + 1)) ⟨t :: ts⟩ =
      first_of [If.parse block (rounds + 1), Function.parse block (rounds + 1),
        Node.Return <$> Return.parse (rounds + 1), For.parse block (rounds + 1),
        Node.Typedef <$> Typedef.parse (rounds + 1)] (⟨t :: ts⟩ : Tokens) := by
  have no_symbol : t.type_ ≠ .Symbol := by
    intro h
    rw [h] at keyword
    cases keyword
  rw [parse_funcs, first_of_refused (Declaration.refuses decl).map,
    first_of_refused (Assignment.refuses no_symbol).map,
    first_of_refused (Expr.refuses keyword).map]

theorem first_of_none (closed : closes t.type_ = true) :
    first_of (parse_funcs block (rounds + 1)) ⟨t :: ts⟩ = .ok none (⟨t :: ts⟩ : Tokens) := by
  simp only [closes, Bool.and_eq_true, Bool.not_eq_true', bne_iff_ne] at closed
  obtain ⟨⟨⟨⟨⟨⟨other, decl⟩, cond⟩, func⟩, ret⟩, tdef⟩, loop⟩ := closed
  rw [first_of_keyword other decl, first_of_refused (If.refuses cond),
    first_of_refused (Function.refuses func), first_of_refused (Return.refuses ret).map,
    first_of_refused (For.refuses loop), first_of_refused (Typedef.refuses tdef).map]
  rfl

theorem parse_ok {nodes : List Node} {s s' : Tokens}
    (h : parse_nodes (parse rounds) rounds 100000 s = .ok nodes s') :
    parse (rounds + 1) s = .ok (.mk .init .init nodes) s' := by
  rw [parse]
  apply guard_ok
  rw [bind_ok h]
  rfl

end Block

end Statements

end Mygo
