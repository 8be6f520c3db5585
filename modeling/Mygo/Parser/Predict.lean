import Mygo.Parser.Defs
import Mygo.Lib.Predict

/-! The grammar of the parse functions as readers of token types, without going back.  The bounds are
those of the parse functions. -/

namespace Mygo

namespace Predict

open Reader

abbrev Kinds := Reader TokenType

def take : Kinds := Reader.next (· = .Enf)

def fits (kind : TokenType → Bool) : Kinds := Reader.fits (· = .Enf) kind

def one (T : TokenType) : Kinds := fits (· = T)

def spent : Kinds := fun _ => .spent

def overrun : Kinds := fun _ => .overrun

def starts_expr (T : TokenType) : Bool := Expr.is_atomic T || T = .Sub

def starts_stmt (T : TokenType) : Bool :=
  starts_expr T || [.Var, .If, .Func, .Return, .For, .Typedef].contains T

def lines : Nat → Kinds
  | 0 => spent
  | rounds + 1 => optional (· = .Enl) (take.andThen (lines rounds))

section Expressions

variable (expr : Kinds)

def args : Nat → Kinds
  | 0 => spent
  | rounds + 1 => optional starts_expr fun ts =>
    (expr ts).on .cut .cut (optional (· = .Comma) (take.andThen (args rounds)))

def call_rest (rounds : Nat) : Kinds := take.andThen ((args expr rounds).andThen (one .RParent))

/-- What is no call is cut at its parenthesis. -/
def atom (rounds : Nat) : Kinds := look fun T =>
  if T = .Sub then take.andThen (fits Expr.is_atomic)
  else (fits Expr.is_atomic).andThen (optional (· = .LParent) fun ts =>
    (call_rest expr rounds ts).on .cut .cut .done)

def operators (is_op : TokenType → Bool) (operand : Kinds) : Nat → Kinds
  | 0 => spent
  | rounds + 1 => optional is_op (take.andThen (operand.andMore (operators is_op operand rounds)))

def chain (is_op : TokenType → Bool) (operand : Kinds) (rounds : Nat) : Kinds :=
  operand.andMore (optional is_op (operators is_op operand rounds))

def product (rounds : Nat) : Kinds := chain Expr.is_star (atom expr rounds) rounds

def sum (rounds : Nat) : Kinds := chain Expr.is_plus (product expr rounds) rounds

def comparison (rounds : Nat) : Kinds :=
  (sum expr rounds).andMore (optional Expr.is_greater (take.andThen (sum expr rounds)))

end Expressions

def expr : Nat → Kinds
  | 0 => spent
  | rounds + 1 => comparison (expr rounds) rounds

def fields (rounds : Nat) : Nat → Kinds
  | 0 => overrun
  | left + 1 => optional (· = .Symbol) (take.andThen ((one .Symbol).andThen ((one .Enl).andThen
    ((lines rounds).andThen (fields rounds left)))))

def struct (rounds : Nat) : Kinds :=
  (one .Struct).andThen ((one .LBrace).andThen ((lines rounds).andThen
    ((fields rounds 10000).andThen (one .RBrace))))

/-- A struct that does not fit is an empty type. -/
def type (rounds : Nat) : Kinds := look fun T =>
  if T = .Struct then fun ts => (struct rounds ts).on .cut .cut .done
  else optional (· = .Symbol) take

def declaration (rounds : Nat) : Kinds :=
  (one .Var).andThen ((one .Symbol).andThen ((type rounds).andThen ((one .Assign).andThen (expr rounds))))

def assignment (rounds : Nat) : Kinds :=
  (one .Symbol).andThen ((one .Assign).andThen (expr rounds))

def exprs (rounds : Nat) : Nat → Kinds
  | 0 => overrun
  | left + 1 => optional starts_expr fun ts =>
    (expr rounds ts).on .cut (if left = 0 then .overrun else .cut) (exprs rounds left)

def ret (rounds : Nat) : Kinds := (one .Return).andThen (exprs rounds 100)

def typedef (rounds : Nat) : Kinds := (one .Typedef).andThen ((type rounds).andThen (one .Symbol))

def params : Nat → Kinds
  | 0 => .done
  | left + 1 => optional (· = .Symbol) ((one .Symbol).andThen ((one .Symbol).andThen
    ((optional (· = .Comma) take).andThen (params left))))

def returns : Nat → Kinds
  | 0 => overrun
  | left + 1 => optional (· = .Symbol) (take.andThen (returns left))

section Statements

variable (block : Kinds) (rounds : Nat)

def braced : Kinds :=
  (one .LBrace).andThen ((lines rounds).andThen (block.andThen (one .RBrace)))

/-- Any token is taken for the name. -/
def function : Kinds :=
  (one .Func).andThen (take.andThen ((one .LParent).andThen ((params 1000).andThen ((one .RParent).andThen
    ((returns 99).andThen (braced block rounds))))))

def branches : Nat → Kinds
  | 0 => overrun
  | left + 1 => (expr rounds).andThen ((braced block rounds).andThen (optional (· = .Else)
    (take.andThen (if left = 0 then overrun
      else look fun T => if T = .If then take.andThen (branches left) else braced block rounds))))

def if_ : Kinds := (one .If).andThen (branches block rounds 1000)

def for_ : Kinds :=
  (one .For).andThen ((maybe (· = .Var) (declaration rounds)).andThen ((one .Semicolon).andThen
    ((maybe starts_expr (expr rounds)).andThen ((one .Semicolon).andThen
      ((maybe (· = .Symbol) (assignment rounds)).andThen (braced block rounds))))))

/-- A symbol begins an assignment when the next token says so.  An assignment that does not fit is an
expression that is cut. -/
def symbol_stmt : Kinds
  | [_] => .overrun
  | T :: .Assign :: ts => (assignment rounds (T :: .Assign :: ts)).on .cut .cut .done
  | ts => expr rounds ts

def stmt : Kinds := look fun
  | .Symbol => symbol_stmt rounds
  | .Var => declaration rounds
  | .If => if_ block rounds
  | .Func => function block rounds
  | .Return => ret rounds
  | .For => for_ block rounds
  | .Typedef => typedef rounds
  | _ => expr rounds

def stmts : Nat → Kinds
  | 0 => overrun
  | left + 1 => (lines rounds).andThen (optional starts_stmt fun ts =>
    (stmt block rounds ts).on .cut (if left = 0 then .overrun else .cut) (stmts left))

end Statements

def block : Nat → Kinds
  | 0 => spent
  | rounds + 1 => stmts (block rounds) rounds 100000

def root (rounds : Nat) : Kinds :=
  (block rounds).andThen ((lines rounds).andThen (one .Enf))

end Predict

end Mygo
