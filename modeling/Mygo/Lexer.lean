import Mygo.Token

/-! `Value::FromChars` of token.cpp, on the bytes from the current position to the end. -/

namespace Mygo

/-- The `T(a, b)` entries of `TokenList`; the others have no spelling. -/
def TokenType.spelling : TokenType → Bytes
  | .Dot => bytes "."
  | .At => bytes "@"
  | .Mygo => bytes "mygo"
  | .Go => bytes "go"
  | .Walrus => bytes ":="
  | .And => bytes "&&"
  | .Not => bytes "!"
  | .Or => bytes "||"
  | .True => bytes "true"
  | .False => bytes "flase"
  | .Var => bytes "var"
  | .Const => bytes "const"
  | .Struct => bytes "struct"
  | .For => bytes "for"
  | .If => bytes "if"
  | .Else => bytes "else"
  | .Typedef => bytes "type"
  | .Equal => bytes "=="
  | .Less => bytes "<"
  | .Greater => bytes ">"
  | .Assign => bytes "="
  | .Plus => bytes "+"
  | .Sub => bytes "-"
  | .Star => bytes "*"
  | .Slash => bytes "/"
  | .Func => bytes "func"
  | .Return => bytes "return"
  | .LBrace => bytes "\x7b"
  | .RBrace => bytes "\x7d"
  | .LParent => bytes "("
  | .RParent => bytes ")"
  | .Comma => bytes ","
  | .Colon => bytes ":"
  | .Semicolon => bytes ";"
  | .Space | .Int | .Float | .Str | .Symbol | .Enl | .Enf => []

namespace Lexer

def simple_tokens : List TokenType :=
  [.Dot, .At, .Mygo, .Go, .Walrus, .And, .Not, .Or, .True, .False, .Var, .Const, .Struct, .For,
    .If, .Else, .Typedef, .Equal, .Less, .Greater, .Assign, .Plus, .Sub, .Star, .Slash, .Func,
    .Return, .LBrace, .RBrace, .LParent, .RParent, .Comma, .Colon, .Semicolon]

def is_digit (c : UInt8) : Bool := 48 ≤ c && c ≤ 57

def is_symbol_head_ele (c : UInt8) : Bool :=
  (97 ≤ c && c ≤ 122) || (65 ≤ c && c ≤ 90) || c == 95

def is_symbol_ele (c : UInt8) : Bool := is_symbol_head_ele c || is_digit c

def is_blank (c : UInt8) : Bool := c == 32 || c == 9

def digits (len : Nat) (res : Int) : Bytes → Nat × Int
  | [] => (len, res)
  | c :: cs => if is_digit c then digits (len + 1) (res * 10 + (c.toNat - 48)) cs else (len, res)

def int_from_chars (cs : Bytes) : Option Value :=
  let (len, res) := digits 0 0 cs
  if 0 < len then some (.CreateInt len res) else none

def float_from_chars (cs : Bytes) : Option Value :=
  match int_from_chars cs with
  | none => none
  | some n1 =>
    match cs.drop n1.len_ with
    | [] => none
    | c :: rest =>
      if c ≠ 46 then none
      else match int_from_chars rest with
        | none => none
        | some n2 => some (.CreateFloat (n1.len_ + n2.len_ + 1) ⟨n1.i_data_, n2.i_data_, n2.len_⟩)

/-- A quoted string needs its closing quote before the end. -/
def str_from_chars : Bytes → Option Value
  | [] => none
  | c :: cs =>
    if c ≠ 34 then none
    else
      let s := cs.takeWhile (· ≠ 34)
      if s.length = cs.length then none else some (.CreateStr (s.length + 2) s)

/-- A symbol that reaches the end is not recognised. -/
def symbol_from_chars : Bytes → Option Value
  | [] => none
  | c :: cs =>
    if is_symbol_head_ele c then
      let s := cs.takeWhile is_symbol_ele
      if s.length = cs.length then none else some (.CreateSymbol (s.length + 1) (c :: s))
    else none

def endl_from_chars : Bytes → Option Value
  | 13 :: 10 :: _ => some (.make .Enl 2)
  | 13 :: _ => some (.make .Enl 1)
  | 10 :: _ => some (.make .Enl 1)
  | _ => none

def simple_from_chars (cs : Bytes) : Option Value :=
  (simple_tokens.find? fun t => t.spelling.isPrefixOf cs).map fun t => .make t t.spelling.length

end Lexer

open Lexer in
def Value.FromChars (cs : Bytes) : Option Value :=
  match cs with
  | [] => some (.make .Enf 0)
  | c :: _ =>
    match endl_from_chars cs with
    | some v => some v
    | none =>
      if is_blank c then some (.make .Space (cs.takeWhile is_blank).length)
      else
        (simple_from_chars cs).or <| (float_from_chars cs).or <| (int_from_chars cs).or <|
          (str_from_chars cs).or (symbol_from_chars cs)

end Mygo
