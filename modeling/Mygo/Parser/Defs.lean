import Mygo.Ast
import Mygo.Stream
import Mygo.Lib.Parse

/-! The parse functions of ast.cpp.  A bound on rounds and depth stands where the source has
none; a failed assertion and the access to a disengaged optional are `abort`. -/

namespace Mygo

/-- `#T` in the macros. -/
def TokenType.stringized (t : TokenType) : String :=
  "token::Type::" ++ match t with
    | .Dot => "Dot" | .At => "At" | .Mygo => "Mygo" | .Go => "Go" | .Walrus => "Walrus"
    | .And => "And" | .Not => "Not" | .Or => "Or" | .True => "True" | .False => "False"
    | .Var => "Var" | .Const => "Const" | .Struct => "Struct" | .For => "For" | .If => "If"
    | .Else => "Else" | .Typedef => "Typedef" | .Equal => "Equal" | .Less => "Less"
    | .Greater => "Greater" | .Assign => "Assign" | .Plus => "Plus" | .Sub => "Sub"
    | .Star => "Star" | .Slash => "Slash" | .Func => "Func" | .Return => "Return"
    | .LBrace => "LBrace" | .RBrace => "RBrace" | .LParent => "LParent" | .RParent => "RParent"
    | .Comma => "Comma" | .Colon => "Colon" | .Semicolon => "Semicolon" | .Space => "Space"
    | .Int => "Int" | .Float => "Float" | .Str => "Str" | .Symbol => "Symbol" | .Enl => "Enl"
    | .Enf => "Enf"

structure Err where
  err_stack_ : List (Loc × String)
  is_fatal_ : Bool
  deriving DecidableEq

namespace Err

def make (loc : Loc) (msg : String) : Err := ⟨[(loc, msg)], false⟩

def Fatal (loc : Loc) (msg : String) : Err := ⟨[(loc, msg)], true⟩

def Append (old : Err) (loc : Loc) (msg : String) : Err :=
  { old with err_stack_ := old.err_stack_ ++ [(loc, msg)] }

def setFatal (e : Err) : Err := { e with is_fatal_ := true }

end Err

abbrev Parsing (σ α : Type) := Parser σ Err α

section Macros

variable {σ : Type} [Stream σ] {α : Type}

open Parser

def peek : Parsing σ (Option Value) := fun s =>
  match Stream.Peek s with
  | some (v, s) => .ok v s
  | none => .abort

/-- `Peek()->` or `Peek().value()`. -/
def peeked : Parsing σ Value := do
  match ← peek with
  | some v => pure v
  | none => crash

def next : Parsing σ Unit := fun s =>
  match Stream.Next s with
  | some s => .ok () s
  | none => .abort

def loc : Parsing σ Loc := read Stream.loc

def fail (msg : String) : Parsing σ α := do
  raise (.make (← loc) msg)

def fatal (msg : String) : Parsing σ α := do
  raise (.Fatal (← loc) msg)

def append (e : Err) (msg : String) : Parsing σ α := do
  raise (e.Append (← loc) msg)

/-- `TokenStream::StateGuard`: the state is loaded again unless the parser finishes. -/
def guard (p : Loc → Parsing σ α) : Parsing σ α :=
  guarded Stream.Load fun s => p (Stream.loc s) s

def is_token (T : TokenType) : Parsing σ Bool := do
  match ← peek with
  | none => pure false
  | some _ => do
    let v ← peeked
    pure (v.type_ = T)

def skip_token (T : TokenType) : Nat → Parsing σ Unit
  | 0 => spent
  | rounds + 1 => do
    if ← is_token T then
      next
      skip_token T rounds
    else pure ()

def skip_token_once (T : TokenType) : Parsing σ Unit := do
  if ← is_token T then next else pure ()

/-- The `EXPECT_` macros differ in how they fail and in whether they give the token. -/
def expect_with (error : String → Parsing σ Value) (null other : String) (T : TokenType) :
    Parsing σ Value := do
  match ← peek with
  | none => error null
  | some _ => do
    let v ← peeked
    if v.type_ = T then do
      next
      pure v
    else error other

def expect_token (T : TokenType) : Parsing σ Value :=
  expect_with fail ("expect token but get null" ++ T.stringized) ("expect token " ++ T.stringized) T

def expect_token_fatal (T : TokenType) : Parsing σ Value :=
  expect_with fatal ("expect token but get null" ++ T.stringized) ("expect token " ++ T.stringized) T

def expect_token_err (T : TokenType) (err : String) : Parsing σ Value :=
  expect_with fail err err T

def peek_type : Parsing σ TokenType := do
  let v ← peeked
  pure v.type_

end Macros

section Functions

variable {σ : Type} [Stream σ]

open Parser

namespace Expr

def setLoc (start end_ : Loc) : Expr → Expr
  | .TOKEN _ _ v => .TOKEN start end_ v
  | .OPS _ _ ops exprs => .OPS start end_ ops exprs
  | .FUNCALL _ _ exprs => .FUNCALL start end_ exprs

def is_atomic : TokenType → Bool
  | .Int | .Float | .Str | .True | .False | .Symbol => true
  | _ => false

def parse_token : Parsing σ Expr := guard fun start => do
  match ← peek with
  | none => fail "parse tk error"
  | some v =>
    if is_atomic v.type_ then do
      next
      let end_ ← loc
      pure (.TOKEN start end_ v)
    else fail "parse tk error"

def parse_args (expr : Parsing σ Expr) : Nat → Parsing σ (List Expr)
  | 0 => spent
  | rounds + 1 => do
    match ← attempt expr with
    | .error _ => pure []
    | .ok e =>
      if ← is_token .Comma then do
        next
        let es ← parse_args expr rounds
        pure (e :: es)
      else pure [e]

def parse_funcall (expr : Parsing σ Expr) (rounds : Nat) : Parsing σ Expr := guard fun start => do
  match ← attempt parse_token with
  | .error _ => fail "expect err"
  | .ok f => do
    let _ ← expect_token .LParent
    let args ← parse_args expr rounds
    let _ ← expect_token .RParent
    let end_ ← loc
    pure (.FUNCALL start end_ (f :: args))

def parse_operand (start : Loc) : Bool → Parsing σ Expr := fun sub_prefix => do
  match ← attempt parse_token with
  | .error _ => fail "parse atomic error"
  | .ok e => do
    let end_ ← loc
    pure (if sub_prefix then .OPS start end_ [.Sub] [e] else e.setLoc start end_)

def parse_atomic (expr : Parsing σ Expr) (rounds : Nat) : Parsing σ Expr := guard fun start => do
  match ← attempt (parse_funcall expr rounds) with
  | .ok fc => do
    let end_ ← loc
    pure (fc.setLoc start end_)
  | .error _ => do
    let t ← peek_type
    if t = .Sub then do
      next
      parse_operand start true
    else parse_operand start false

def parse_operators (is_op : TokenType → Bool) (operand : Parsing σ Expr) (msg : String) :
    Nat → Parsing σ (List TokenType × List Expr)
  | 0 => spent
  | rounds + 1 => do
    let t ← peek_type
    if is_op t then do
      next
      match ← attempt operand with
      | .error _ => fail msg
      | .ok e => do
        let (ops, es) ← parse_operators is_op operand msg rounds
        pure (t :: ops, e :: es)
    else pure ([], [])

/-- `parse_with_star` and `parse_with_plus` differ in operators, operand and messages. -/
def parse_chain (is_op : TokenType → Bool) (operand : Parsing σ Expr) (first_msg msg : String)
    (rounds : Nat) : Parsing σ Expr := guard fun start => do
  match ← attempt operand with
  | .error _ => fail first_msg
  | .ok expr0 => do
    let t ← peek_type
    if is_op t then do
      let (ops, es) ← parse_operators is_op operand msg rounds
      let end_ ← loc
      pure (.OPS start end_ ops (expr0 :: es))
    else do
      let end_ ← loc
      pure (expr0.setLoc start end_)

def is_star (t : TokenType) : Bool := t = .Star || t = .Slash

def is_plus (t : TokenType) : Bool := t = .Plus || t = .Sub

def is_greater (t : TokenType) : Bool := t = .Greater || t = .Less || t = .Equal

def parse_with_star (expr : Parsing σ Expr) (rounds : Nat) : Parsing σ Expr :=
  parse_chain is_star (parse_atomic expr rounds) "parse atomic expr error"
    "parse expr with star error" rounds

def parse_with_plus (expr : Parsing σ Expr) (rounds : Nat) : Parsing σ Expr :=
  parse_chain is_plus (parse_with_star expr rounds) "parse expr with error" "parse expr error" rounds

def parse_with_greater (expr : Parsing σ Expr) (rounds : Nat) : Parsing σ Expr :=
  guard fun start => do
    match ← attempt (parse_with_plus expr rounds) with
    | .error _ => fail "parse expr error"
    | .ok expr0 => do
      let t ← peek_type
      if is_greater t then do
        next
        match ← attempt (parse_with_plus expr rounds) with
        | .error _ => fail "parse expr error"
        | .ok expr1 => do
          let end_ ← loc
          pure (.OPS start end_ [t] [expr0, expr1])
      else do
        let end_ ← loc
        pure (expr0.setLoc start end_)

def parse : Nat → Parsing σ Expr
  | 0 => spent
  | rounds + 1 => parse_with_greater (parse rounds) rounds

end Expr

/-- The loop over the fields, with what is left of its 10000 rounds. -/
def Struct.parse_fields (rounds : Nat) : Nat → Parsing σ (List (Bytes × Bytes))
  | 0 => crash
  | left + 1 => do
    let first ← peeked
    if first.type_ = .Symbol then do
      next
      let second ← peeked
      if second.type_ = .Symbol then do
        next
        let _ ← expect_token .Enl
        skip_token .Enl rounds
        let fields ← parse_fields rounds left
        pure ((first.str_data_, second.str_data_) :: fields)
      else fail "expect name"
    else pure []

def Struct.parse (rounds : Nat) : Parsing σ Struct := guard fun start => do
  let _ ← expect_token .Struct
  let _ ← expect_token .LBrace
  skip_token .Enl rounds
  let fields ← Struct.parse_fields rounds 10000
  let _ ← expect_token .RBrace
  let end_ ← loc
  pure ⟨start, end_, fields⟩

/-- Without a type nothing is finished, so the state is loaded again. -/
def VarType.parse (rounds : Nat) : Parsing σ VarType := fun s =>
  (do
    let start ← loc
    match ← attempt (Struct.parse rounds) with
    | .ok stct => do
      let end_ ← loc
      pure ⟨start, end_, true, some stct, []⟩
    | .error _ =>
      if ← is_token .Symbol then do
        let name ← peeked
        next
        let end_ ← loc
        pure ⟨start, end_, false, none, name.str_data_⟩
      else do
        modify fun t => Stream.Load t s
        pure ⟨.init, .init, false, none, []⟩ : Parsing σ VarType) s

def Declaration.parse (rounds : Nat) : Parsing σ Declaration := guard fun start => do
  let _ ← expect_token .Var
  let v ← expect_token_fatal .Symbol
  let var_type ← attempt (VarType.parse rounds)
  let _ ← expect_token .Assign
  match ← attempt (Expr.parse rounds) with
  | .error e => append e "parse Expr error"
  | .ok expr => do
    let end_ ← loc
    pure ⟨start, end_, v.str_data_, var_type.toOption, expr⟩

def Assignment.parse (rounds : Nat) : Parsing σ Assignment := guard fun start => do
  let v ← expect_token .Symbol
  let _ ← expect_token .Assign
  match ← attempt (Expr.parse rounds) with
  | .error e => append e "parse Expr error"
  | .ok expr => do
    let end_ ← loc
    pure ⟨start, end_, v.str_data_, expr⟩

/-- The loop over the returned expressions, with what is left of its 100 rounds. -/
def Return.parse_exprs (rounds : Nat) : Nat → Parsing σ (List Expr)
  | 0 => crash
  | left + 1 => do
    match ← attempt (Expr.parse rounds) with
    | .ok e => do
      let es ← parse_exprs rounds left
      pure (e :: es)
    | .error _ => pure []

def Return.parse (rounds : Nat) : Parsing σ Return := guard fun start => do
  let _ ← expect_token .Return
  let ret_exprs ← Return.parse_exprs rounds 100
  let end_ ← loc
  pure ⟨start, end_, ret_exprs⟩

def Typedef.parse (rounds : Nat) : Parsing σ Typedef := guard fun start => do
  let _ ← expect_token .Typedef
  match ← attempt (VarType.parse rounds) with
  | .error e => do
    raise (e.Append (← loc) "parsing var_type error when parsing typedef").setFatal
  | .ok old_type => do
    let name ← peeked
    if name.type_ = .Symbol then do
      next
      let end_ ← loc
      pure ⟨start, end_, name.str_data_, old_type⟩
    else fatal "expect name in typedef"

/-- The loop over the arguments, at most 1000 of them. -/
def Function.parse_args : Nat → Parsing σ (List (Bytes × Bytes))
  | 0 => pure []
  | left + 1 => do
    let t ← peek_type
    if t = .Symbol then do
      let val_name ← expect_token_fatal .Symbol
      let val_t ← expect_token_fatal .Symbol
      skip_token_once .Comma
      let args ← parse_args left
      pure ((val_name.str_data_, val_t.str_data_) :: args)
    else pure []

/-- The loop over the return types, whose round 99 fails its assertion. -/
def Function.parse_returns : Nat → Parsing σ (List Bytes)
  | 0 => crash
  | left + 1 => do
    if ← is_token .Symbol then do
      let t ← peeked
      next
      let returns ← parse_returns left
      pure (t.str_data_ :: returns)
    else pure []

/-- `block` is `Block::parse`.  The error for a name that is no symbol is built and dropped. -/
def Function.parse (block : Parsing σ Block) (rounds : Nat) : Parsing σ Node := guard fun start => do
  let _ ← expect_token .Func
  let func_name ← peeked
  next
  let _ ← expect_token_fatal .LParent
  let args ← Function.parse_args 1000
  let _ ← expect_token_fatal .RParent
  let returns ← Function.parse_returns 99
  let _ ← expect_token_err .LBrace "expect \x7b"
  skip_token .Enl rounds
  match ← attempt block with
  | .error e => append e "parse block error"
  | .ok block => do
    let _ ← expect_token .RBrace
    let end_ ← loc
    pure (.Function start end_ func_name.str_data_ args returns block)

def parse_braced (block : Parsing σ Block) (msg : String) (rounds : Nat) : Parsing σ Block := do
  let _ ← expect_token .LBrace
  skip_token .Enl rounds
  match ← attempt block with
  | .error e => do
    let l ← loc
    append e (msg ++ l.ToString)
  | .ok block => do
    let _ ← expect_token .RBrace
    pure block

/-- The loop over the branches from the condition on, with what is left of its 1000 rounds. -/
def If.parse_branches (block : Parsing σ Block) (rounds : Nat) :
    Nat → Parsing σ (List (Expr × Block) × Option Block)
  | 0 => crash
  | left + 1 => do
    match ← attempt (Expr.parse rounds) with
    | .error _ => fail "parse expr error"
    | .ok cond => do
      let body ← parse_braced block "parse if error at" rounds
      if ← is_token .Else then do
        next
        if left = 0 then crash
        else if ← is_token .If then do
          next
          let (branches, tail) ← parse_branches block rounds left
          pure ((cond, body) :: branches, tail)
        else do
          let tail ← parse_braced block "parse if error at" rounds
          pure ([(cond, body)], some tail)
      else pure ([(cond, body)], none)

def If.parse (block : Parsing σ Block) (rounds : Nat) : Parsing σ Node := guard fun start => do
  let _ ← expect_token .If
  let (branches, tail) ← If.parse_branches block rounds 1000
  let end_ ← loc
  pure (.If start end_ branches tail)

def For.parse (block : Parsing σ Block) (rounds : Nat) : Parsing σ Node := guard fun start => do
  let _ ← expect_token .For
  let decl ← attempt (Declaration.parse rounds)
  let _ ← expect_token .Semicolon
  let expr ← attempt (Expr.parse rounds)
  let _ ← expect_token .Semicolon
  let asgn ← attempt (Assignment.parse rounds)
  let body ← parse_braced block "parse for error at" rounds
  let end_ ← loc
  pure (.For start end_ decl.toOption expr.toOption asgn.toOption body)

/-- The inner loop of `Block::parse`: the first function that succeeds or fails fatally. -/
def Block.first_of : List (Parsing σ Node) → Parsing σ (Option Node)
  | [] => pure none
  | f :: fs => do
    match ← attempt f with
    | .ok node => pure (some node)
    | .error e => if e.is_fatal_ then raise e else first_of fs

def Block.parse_funcs (block : Parsing σ Block) (rounds : Nat) : List (Parsing σ Node) :=
  [Node.Declaration <$> Declaration.parse rounds,
    Node.Assignment <$> Assignment.parse rounds,
    Node.Expr <$> Expr.parse rounds,
    If.parse block rounds,
    Function.parse block rounds,
    Node.Return <$> Return.parse rounds,
    For.parse block rounds,
    Node.Typedef <$> Typedef.parse rounds]

/-- The loop over the statements, with what is left of its 100000 rounds. -/
def Block.parse_nodes (block : Parsing σ Block) (rounds : Nat) : Nat → Parsing σ (List Node)
  | 0 => crash
  | left + 1 => do
    skip_token .Enl rounds
    match ← Block.first_of (Block.parse_funcs block rounds) with
    | some node => do
      let nodes ← parse_nodes block rounds left
      pure (node :: nodes)
    | none => pure []

def Block.parse : Nat → Parsing σ Block
  | 0 => spent
  | rounds + 1 => guard fun start => do
    let nodes ← Block.parse_nodes (Block.parse rounds) rounds 100000
    let end_ ← loc
    pure (.mk start end_ nodes)

def Root.parse (rounds : Nat) : Parsing σ Root := guard fun start => do
  match ← attempt (Block.parse rounds) with
  | .error e => append e "parse root err"
  | .ok block => do
    skip_token .Enl rounds
    let _ ← expect_token .Enf
    let end_ ← loc
    pure ⟨start, end_, block⟩

end Functions

end Mygo
