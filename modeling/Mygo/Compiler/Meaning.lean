import Mygo.Compiler.Emitted

/-! What the statements of a program do to the stack and the output, read off the tree as the code generator
reads it: operands are exchanged, no execution gets past an `if`, the block of a `for` is taken once, its head and
all initialisers are passed over, and no function but `print` is called. -/

namespace Mygo

open ByteMemory

structure Store where
  mem : Mem
  out : List Output

namespace Store

def init : Store := ⟨fun _ => 0, []⟩

def get (k : Int) (s : Store) : Except Fault (BitVec 32) :=
  if SlotFits k 4 then .ok (s.mem.load 32 k.toNat) else .error .stack

def set (k : Int) (v : BitVec 32) (s : Store) : Except Fault Store :=
  if SlotFits k 4 then .ok { s with mem := s.mem.store k.toNat v } else .error .stack

def print (k : Int) (s : Store) : Except Fault Store := do
  let v ← s.get k
  .ok { s with out := s.out ++ [.I32 v] }

def move (dst src : Int) (s : Store) : Except Fault Store :=
  if SlotFits src 1 ∧ SlotFits dst 1 then
    .ok { s with mem := Function.update s.mem dst.toNat (s.mem src.toNat) }
  else .error .stack

def copy (dst src : Int) : Nat → Store → Except Fault Store
  | 0, s => .ok s
  | n + 1, s => do
    let s ← copy dst src n s
    s.move (i32 (dst + n)) (i32 (src + n))

def apply (op : BinOp) (origin top : Int) (s : Store) : Except Fault Store := do
  let x ← s.get top
  let y ← s.get origin
  let v ← arithInt op x y
  s.set origin v

/-- An operator applied to the slot at `top` and the accumulator at `origin`, in this order. -/
def applyOp (t : TokenType) (origin top : Int) (s : Store) : Except Fault Store :=
  match t with
  | .Plus => s.apply .Add origin top
  | .Sub => s.apply .Sub origin top
  | .Star => s.apply .Mul origin top
  | .Slash => s.apply .Div origin top
  | _ => .ok s

end Store

variable (host : Host)

namespace Expr

mutual

/-- Evaluates into the slot at `k`.  A token without a number leaves the slot as it is, an
operator without an instruction leaves its first operand, a call runs its arguments in turn. -/
def run : Expr → Int → Store → Except Fault Store
  | .TOKEN _ _ v, k, s => match v.type_ with
    | .Int => s.set k (BitVec.ofInt 32 v.i_data_)
    | .Float => s.set k (host.f32 v.f_data_)
    | _ => .ok s
  | .OPS _ _ ops exprs, k, s => runOps ops exprs k s
  | .FUNCALL _ _ exprs, k, s => runCall exprs k s

def runOps (ops : List TokenType) : List Expr → Int → Store → Except Fault Store
  | [], _, s => .ok s
  | e :: es, k, s => do
    let s ← run e k s
    if ops = [.Sub] ∧ es = [] then do
      let x ← s.get k
      s.set k (-x)
    else runChain k (i32 (k + 4)) ops es s

def runChain (origin top : Int) : List TokenType → List Expr → Store → Except Fault Store
  | t :: ops, e :: es, s => do
    let s ← run e top s
    let s ← s.applyOp t origin top
    runChain origin top ops es s
  | _, _, s => .ok s

def runCall : List Expr → Int → Store → Except Fault Store
  | [], _, s => .ok s
  | f :: args, k, s => do
    let s ← runArgs args k s
    if f.str = bytes "print" then s.print k else .ok s

def runArgs : List Expr → Int → Store → Except Fault Store
  | [], _, s => .ok s
  | e :: es, k, s => do
    let s ← run e k s
    runArgs es k s

end

end Expr

structure Layout where
  top : Int
  vars : Scope

namespace Layout

def empty : Layout := ⟨0, fun _ => none⟩

def declare (table : TypeTable) (decl : Declaration) (l : Layout) : Layout :=
  match decl.var_type.bind fun t => table.findByName host t.name_ with
  | none => l
  | some s => ⟨i32 (l.top + s.size), l.vars.emplace decl.var_name ⟨decl.var_name, none, s.size, l.top⟩⟩

def subscript (name : Bytes) (l : Layout) : Layout := ⟨l.top, l.vars.emplace name .zero⟩

end Layout

namespace Meaning

variable (table : TypeTable)

mutual

/-- No execution gets past an `if`: its first instruction has no operands. -/
def runNode : Node → Layout → Store → Except Fault (Layout × Store)
  | .Declaration decl, l, s => .ok (l.declare host table decl, s)
  | .Assignment asgm, l, s =>
    let l := l.subscript asgm.var_name
    match l.vars asgm.var_name with
    | none => .ok (l, s)
    | some var => do
      let s' ← asgm.expr.run host l.top s
      let s' ← s'.copy var.address l.top var.size.toNat
      .ok (l, s')
  | .Expr e, l, s => do
    let s' ← e.run host l.top s
    .ok (l, s')
  | .If _ _ _ _, _, _ => .error .address
  | .For _ _ _ _ _ block, l, s => runBlock block l s
  | .Function _ _ _ _ _ _, l, s => .ok (l, s)
  | .Return _, l, s => .ok (l, s)
  | .Typedef _, l, s => .ok (l, s)

def runBlock : Block → Layout → Store → Except Fault (Layout × Store)
  | .mk _ _ nodes, l, s => runNodes nodes l s

def runNodes : List Node → Layout → Store → Except Fault (Layout × Store)
  | [], l, s => .ok (l, s)
  | node :: nodes, l, s => do
    let (l, s) ← runNode node l s
    runNodes nodes l s

end

/-- Functions one after the other, each in a frame of its own. -/
def runFuncs : List (Bytes × Block) → Store → Except Fault Store
  | [], s => .ok s
  | (_, block) :: funcs, s => do
    let (_, s) ← runBlock host table block .empty s
    runFuncs funcs s

end Meaning

namespace Root

def funcs (ast : Root) : List (Bytes × Block) :=
  ast.nodes.filterMap fun
    | .Function _ _ func_name _ _ block => some (func_name, block)
    | _ => none

def run (table : TypeTable) (ast : Root) : Except Fault Store :=
  Meaning.runFuncs host table ast.funcs .init

end Root

end Mygo
