import Mathlib.Tactic

namespace Mygo

abbrev Bytes := List UInt8

def bytes (s : String) : Bytes := s.toList.map fun c => c.toNat.toUInt8

structure Loc where
  line : Nat
  coloum : Nat
  deriving DecidableEq

def Loc.init : Loc := ⟨1, 1⟩

def Loc.ToString (l : Loc) : String :=
  "(" ++ toString l.line ++ "," ++ toString l.coloum ++ ")"

set_option linter.dupNamespace false in
/-- `token::Type`, in the order of `TokenList`. -/
inductive TokenType
  | Dot | At | Mygo | Go | Walrus | And | Not | Or | True | False | Var | Const | Struct | For
  | If | Else | Typedef | Equal | Less | Greater | Assign | Plus | Sub | Star | Slash | Func
  | Return | LBrace | RBrace | LParent | RParent | Comma | Colon | Semicolon
  | Space | Int | Float | Str | Symbol | Enl | Enf
  deriving DecidableEq, Repr

/-- The parts `n1`, `n2` and `n2.len()` from which a float literal is computed. -/
structure FloatLiteral where
  int_part : Int
  decimal_part : Int
  decimal_len : Nat
  deriving DecidableEq

/-- `token::Value`.  An `i_data_` beyond `int` is kept exact; `f_data_` stays a literal. -/
structure Value where
  start : Loc
  end_ : Loc
  type_ : TokenType
  len_ : Nat
  str_data_ : Bytes
  f_data_ : FloatLiteral
  i_data_ : Int
  deriving DecidableEq

namespace Value

def make (t : TokenType) (len : Nat) : Value :=
  ⟨.init, .init, t, len, [], ⟨0, 0, 0⟩, 0⟩

def CreateInt (len : Nat) (data : Int) : Value := { make .Int len with i_data_ := data }

def CreateFloat (len : Nat) (data : FloatLiteral) : Value := { make .Float len with f_data_ := data }

def CreateStr (len : Nat) (data : Bytes) : Value := { make .Str len with str_data_ := data }

def CreateSymbol (len : Nat) (data : Bytes) : Value := { make .Symbol len with str_data_ := data }

end Value

end Mygo
