import Mygo.Lib.Logged
import Mygo.Parser.Defs

/-! The parse functions of statements and blocks with a log: where a statement is tried, where the
head of a loop begins, and the fatal errors that declarations, blocks and statements return. -/

namespace Mygo

inductive Event (σ : Type) : Type
  | statement
  | header (s : σ)
  | fatal (e : Err)

variable {σ : Type} [Stream σ]

abbrev Tracing (σ α : Type) := Logged σ Err (Event σ) α

namespace Tracing

variable {α : Type}

open Logged

def guard (p : Loc → Tracing σ α) : Tracing σ α :=
  guarded Stream.Load fun s => p (Stream.loc s) s

omit [Stream σ] in
def returned : Parse σ Err α → List (Event σ)
  | .err e _ => if e.is_fatal_ then [.fatal e] else []
  | .ok _ _ | .abort | .out_of_fuel => []

omit [Stream σ] in
def invoke (p : Tracing σ α) : Tracing σ α := p.closing returned

@[simp] theorem plain_guard (p : Loc → Tracing σ α) :
    (guard p).plain = Mygo.guard fun start => (p start).plain := rfl

end Tracing

open Logged Tracing

def Function.traced (block : Tracing σ Block) (rounds : Nat) : Tracing σ Node := Tracing.guard fun start => do
  let _ ← quiet (expect_token .Func)
  let func_name ← quiet peeked
  quiet next
  let _ ← quiet (expect_token_fatal .LParent)
  let args ← quiet (Function.parse_args 1000)
  let _ ← quiet (expect_token_fatal .RParent)
  let returns ← quiet (Function.parse_returns 99)
  let _ ← quiet (expect_token_err .LBrace "expect \x7b")
  quiet (skip_token .Enl rounds)
  match ← attempt block with
  | .error e => quiet (append e "parse block error")
  | .ok block => do
    let _ ← quiet (expect_token .RBrace)
    let end_ ← quiet loc
    pure (.Function start end_ func_name.str_data_ args returns block)

def traced_braced (block : Tracing σ Block) (msg : String) (rounds : Nat) : Tracing σ Block := do
  let _ ← quiet (expect_token .LBrace)
  quiet (skip_token .Enl rounds)
  match ← attempt block with
  | .error e => quiet do
    let l ← loc
    append e (msg ++ l.ToString)
  | .ok block => do
    let _ ← quiet (expect_token .RBrace)
    pure block

def If.traced_branches (block : Tracing σ Block) (rounds : Nat) :
    Nat → Tracing σ (List (Expr × Block) × Option Block)
  | 0 => quiet Parser.crash
  | left + 1 => do
    match ← quiet (Parser.attempt (Expr.parse rounds)) with
    | .error _ => quiet (fail "parse expr error")
    | .ok cond => do
      let body ← traced_braced block "parse if error at" rounds
      if ← quiet (is_token .Else) then do
        quiet next
        if left = 0 then quiet Parser.crash
        else if ← quiet (is_token .If) then do
          quiet next
          let (branches, tail) ← traced_branches block rounds left
          pure ((cond, body) :: branches, tail)
        else do
          let tail ← traced_braced block "parse if error at" rounds
          pure ([(cond, body)], some tail)
      else pure ([(cond, body)], none)

def If.traced (block : Tracing σ Block) (rounds : Nat) : Tracing σ Node := Tracing.guard fun start => do
  let _ ← quiet (expect_token .If)
  let (branches, tail) ← If.traced_branches block rounds 1000
  let end_ ← quiet loc
  pure (.If start end_ branches tail)

def For.traced_rest (block : Tracing σ Block) (rounds : Nat) (start : Loc) (decl : Except Err Declaration) :
    Tracing σ Node := do
  let _ ← quiet (expect_token .Semicolon)
  let expr ← quiet (Parser.attempt (Expr.parse rounds))
  let _ ← quiet (expect_token .Semicolon)
  let asgn ← quiet (Parser.attempt (Assignment.parse rounds))
  let body ← traced_braced block "parse for error at" rounds
  let end_ ← quiet loc
  pure (.For start end_ decl.toOption expr.toOption asgn.toOption body)

def For.traced_head (block : Tracing σ Block) (rounds : Nat) (start : Loc) : Tracing σ Node := do
  let decl ← opening .header (attempt (invoke (quiet (Declaration.parse rounds))))
  For.traced_rest block rounds start decl

def For.traced (block : Tracing σ Block) (rounds : Nat) : Tracing σ Node := Tracing.guard fun start => do
  let _ ← quiet (expect_token .For)
  For.traced_head block rounds start

def Block.traced_first : List (Tracing σ Node) → Tracing σ (Option Node)
  | [] => pure none
  | f :: fs => do
    match ← opening (fun _ => .statement) (attempt (invoke f)) with
    | .ok node => pure (some node)
    | .error e => if e.is_fatal_ then quiet (Parser.raise e) else traced_first fs

def Block.traced_funcs (block : Tracing σ Block) (rounds : Nat) : List (Tracing σ Node) :=
  [quiet (Node.Declaration <$> Declaration.parse rounds),
    quiet (Node.Assignment <$> Assignment.parse rounds),
    quiet (Node.Expr <$> Expr.parse rounds),
    If.traced block rounds,
    Function.traced block rounds,
    quiet (Node.Return <$> Return.parse rounds),
    For.traced block rounds,
    quiet (Node.Typedef <$> Typedef.parse rounds)]

def Block.traced_nodes (block : Tracing σ Block) (rounds : Nat) : Nat → Tracing σ (List Node)
  | 0 => quiet Parser.crash
  | left + 1 => do
    quiet (skip_token .Enl rounds)
    match ← Block.traced_first (Block.traced_funcs block rounds) with
    | some node => do
      let nodes ← traced_nodes block rounds left
      pure (node :: nodes)
    | none => pure []

def Block.traced_body (block : Tracing σ Block) (rounds : Nat) : Tracing σ Block :=
  Tracing.guard fun start => do
    let nodes ← Block.traced_nodes block rounds 100000
    let end_ ← quiet loc
    pure (.mk start end_ nodes)

def Block.traced : Nat → Tracing σ Block
  | 0 => quiet Parser.spent
  | rounds + 1 => invoke (Block.traced_body (Block.traced rounds) rounds)

def Root.traced (rounds : Nat) : Tracing σ Root := Tracing.guard fun start => do
  match ← attempt (Block.traced rounds) with
  | .error e => quiet (append e "parse root err")
  | .ok block => do
    quiet (skip_token .Enl rounds)
    let _ ← quiet (expect_token .Enf)
    let end_ ← quiet loc
    pure ⟨start, end_, block⟩

variable {block : Tracing σ Block} {rounds : Nat}

theorem plain_braced (msg : String) :
    (traced_braced block msg rounds).plain = parse_braced block.plain msg rounds := by
  simp only [traced_braced, parse_braced, plain_bind, plain_quiet, plain_attempt]
  refine bind_congr fun _ => bind_congr fun _ => bind_congr fun r => ?_
  cases r with
  | error e => rfl
  | ok block => simp only [plain_bind, plain_quiet, plain_pure]

theorem Function.plain_traced : (Function.traced block rounds).plain = Function.parse block.plain rounds := by
  rw [Function.traced, Function.parse, plain_guard]
  simp only [plain_bind, plain_quiet, plain_attempt]
  refine congrArg Mygo.guard (funext fun start => ?_)
  refine bind_congr fun _ => bind_congr fun _ => bind_congr fun _ => bind_congr fun _ => bind_congr fun _ => ?_
  refine bind_congr fun _ => bind_congr fun _ => bind_congr fun _ => bind_congr fun _ => bind_congr fun r => ?_
  cases r with
  | error e => rfl
  | ok block => simp only [plain_bind, plain_quiet, plain_pure]

theorem If.plain_branches (left : Nat) :
    (If.traced_branches block rounds left).plain = If.parse_branches block.plain rounds left := by
  induction left with
  | zero => rfl
  | succ left ih =>
    simp only [If.traced_branches, If.parse_branches, plain_bind, plain_quiet]
    refine bind_congr fun r => ?_
    cases r with
    | error e => rfl
    | ok cond =>
      simp only [plain_bind, plain_quiet, plain_braced]
      refine bind_congr fun body => bind_congr fun else_ => ?_
      split
      · simp only [plain_bind, plain_quiet]
        refine bind_congr fun _ => ?_
        split
        · rfl
        · simp only [plain_bind, plain_quiet]
          refine bind_congr fun if_ => ?_
          split
          · simp only [plain_bind, plain_quiet, plain_pure, ih]
          · simp only [plain_bind, plain_pure, plain_braced]
      · rfl

theorem If.plain_traced : (If.traced block rounds).plain = If.parse block.plain rounds := by
  simp only [If.traced, If.parse, plain_guard, plain_bind, plain_quiet, plain_pure, If.plain_branches]

theorem For.plain_traced : (For.traced block rounds).plain = For.parse block.plain rounds := by
  rw [For.traced, For.parse, plain_guard]
  simp only [For.traced_head, For.traced_rest, invoke, plain_bind, plain_opening, plain_quiet, plain_attempt,
    plain_closing, plain_pure, plain_braced]

omit [Stream σ] in
theorem Block.plain_first (fs : List (Tracing σ Node)) :
    (Block.traced_first fs).plain = Block.first_of (fs.map plain) := by
  induction fs with
  | nil => rfl
  | cons f fs ih =>
    simp only [Block.traced_first, Block.first_of, List.map_cons, plain_opening, plain_bind, invoke,
      plain_attempt, plain_closing]
    refine bind_congr fun r => ?_
    cases r with
    | ok node => rfl
    | error e =>
      simp only
      split
      · rfl
      · exact ih

theorem Block.plain_funcs :
    (Block.traced_funcs block rounds).map plain = Block.parse_funcs block.plain rounds := by
  simp only [Block.traced_funcs, Block.parse_funcs, List.map_cons, List.map_nil, plain_quiet, If.plain_traced,
    Function.plain_traced, For.plain_traced]

theorem Block.plain_nodes (left : Nat) :
    (Block.traced_nodes block rounds left).plain = Block.parse_nodes block.plain rounds left := by
  induction left with
  | zero => rfl
  | succ left ih =>
    simp only [Block.traced_nodes, Block.parse_nodes, plain_bind, plain_quiet, Block.plain_first, Block.plain_funcs]
    refine bind_congr fun _ => bind_congr fun r => ?_
    cases r with
    | none => rfl
    | some node => simp only [plain_bind, plain_pure, ih]

theorem Block.plain_traced (rounds : Nat) :
    (Block.traced rounds : Tracing σ Block).plain = Block.parse rounds := by
  induction rounds with
  | zero => rfl
  | succ rounds ih =>
    rw [Block.traced, Block.parse, invoke, plain_closing, Block.traced_body, plain_guard]
    simp only [plain_bind, plain_quiet, plain_pure, Block.plain_nodes, ih]

/-- The log does not change what the parser does. -/
theorem Root.plain_traced (rounds : Nat) : (Root.traced rounds : Tracing σ Root).plain = Root.parse rounds := by
  simp only [Root.traced, Root.parse, plain_guard, plain_bind, plain_attempt, Block.plain_traced]
  refine congrArg Mygo.guard (funext fun start => bind_congr fun r => ?_)
  cases r with
  | error e => rfl
  | ok block => simp only [plain_bind, plain_quiet, plain_pure]

end Mygo
