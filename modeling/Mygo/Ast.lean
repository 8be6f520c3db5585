import Mygo.Token

namespace Mygo

inductive Expr
  | TOKEN (start end_ : Loc) (v : Value)
  | OPS (start end_ : Loc) (ops : List TokenType) (exprs : List Expr)
  | FUNCALL (start end_ : Loc) (exprs : List Expr)

/-- `expr.v.str()`; the `v` of a composite expression is default-constructed. -/
def Expr.str : Expr → Bytes
  | .TOKEN _ _ v => v.str_data_
  | .OPS _ _ _ _ => []
  | .FUNCALL _ _ _ => []

structure Struct where
  start : Loc
  end_ : Loc
  fields_ : List (Bytes × Bytes)

structure VarType where
  start : Loc
  end_ : Loc
  is_struct_ : Bool
  stct_ : Option Struct
  name_ : Bytes

structure Declaration where
  start : Loc
  end_ : Loc
  var_name : Bytes
  var_type : Option VarType
  expr : Expr

structure Assignment where
  start : Loc
  end_ : Loc
  var_name : Bytes
  expr : Expr

structure Return where
  start : Loc
  end_ : Loc
  ret_exprs : List Expr

structure Typedef where
  start : Loc
  end_ : Loc
  new_name_ : Bytes
  old_type_ : VarType

mutual

inductive Block
  | mk (start end_ : Loc) (nodes_ : List Node)

inductive Node
  | Declaration (decl : Declaration)
  | Assignment (asgm : Assignment)
  | Expr (expr : Expr)
  | If (start end_ : Loc) (branches_ : List (Expr × Block)) (tail_else_ : Option Block)
  | Function (start end_ : Loc) (func_name : Bytes) (args : List (Bytes × Bytes))
      (returns : List Bytes) (block : Block)
  | Return (ret : Return)
  | For (start end_ : Loc) (init_stmt_ : Option Declaration) (finish_cond_ : Option Expr)
      (step_stmp_ : Option Assignment) (block_ : Block)
  | Typedef (tdef : Typedef)

end

def Block.nodes_ : Block → List Node
  | .mk _ _ nodes => nodes

structure Root where
  start : Loc
  end_ : Loc
  block_ : Block

def Root.nodes (r : Root) : List Node := r.block_.nodes_

end Mygo
