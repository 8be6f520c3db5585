import Mygo.Compiler.Linking
import Mygo.Parser.Canonical

namespace Mygo

namespace Compiler

theorem str_erase (e : Expr) : e.erase.str = e.str := by
  cases e <;> rfl

variable (host : Host)

mutual

theorem compile_expr_erase (e : Expr) (c : Compiler) : compile_expr host e.erase c = compile_expr host e c := by
  cases e with
  | TOKEN l r v => rfl
  | OPS l r ops es =>
    rw [Expr.erase, compile_expr, compile_expr, compile_expr_ops_erase ops es]
  | FUNCALL l r es => rw [Expr.erase, compile_expr, compile_expr, compile_funcall_erase es]

theorem compile_expr_ops_erase (ops : List TokenType) (es : List Expr) (c : Compiler) :
    compile_expr_ops host ops (Expr.eraseAll es) c = compile_expr_ops host ops es c := by
  cases es with
  | nil => rfl
  | cons e es =>
    rw [Expr.eraseAll, compile_expr_ops, compile_expr_ops]
    simp only [Expr.eraseAll_nil, compile_expr_erase e, compile_chain_erase _ ops es, getExprSize]

theorem compile_chain_erase (origin : Int) (ops : List TokenType) (es : List Expr) (c : Compiler) :
    compile_chain host origin ops (Expr.eraseAll es) c = compile_chain host origin ops es c := by
  cases es with
  | nil => rfl
  | cons e es =>
    cases ops with
    | nil => rfl
    | cons t ops =>
      rw [Expr.eraseAll, compile_chain, compile_chain]
      simp only [compile_expr_erase e, compile_chain_erase origin ops es]

theorem compile_funcall_erase (es : List Expr) (c : Compiler) :
    compile_funcall host (Expr.eraseAll es) c = compile_funcall host es c := by
  cases es with
  | nil => rfl
  | cons f es => rw [Expr.eraseAll, compile_funcall, compile_funcall, str_erase, compile_args_erase es]

theorem compile_args_erase (es : List Expr) (c : Compiler) :
    compile_args host (Expr.eraseAll es) c = compile_args host es c := by
  cases es with
  | nil => rfl
  | cons e es =>
    rw [Expr.eraseAll, compile_args, compile_args]
    simp only [compile_expr_erase e, compile_args_erase es]

end

theorem compile_declaration_erase (decl : Declaration) (c : Compiler) :
    compile_declaration host decl.erase c = compile_declaration host decl c := by
  obtain ⟨l, r, var_name, _ | var_type, expr⟩ := decl <;> rfl

theorem compile_assignment_erase (asgm : Assignment) (c : Compiler) :
    compile_assignment host asgm.erase c = compile_assignment host asgm c := by
  simp only [compile_assignment, Assignment.erase, compile_expr_erase]

mutual

theorem compile_statement_erase (node : Node) (c : Compiler) :
    compile_statement host node.erase c = compile_statement host node c := by
  cases node with
  | Declaration decl => exact compile_declaration_erase host decl c
  | Assignment asgm => exact compile_assignment_erase host asgm c
  | Expr e => exact compile_expr_erase host e c
  | If l r branches tail =>
    rw [Node.erase, compile_statement, compile_statement]
    simp only [compile_branches_erase branches, compile_tail_erase tail]
  | For l r decl cond step block => exact compile_block_erase block c
  | Function l r name args returns block => rfl
  | Return ret => rfl
  | Typedef tdef => rfl

theorem compile_branches_erase (branches : List (Expr × Block)) (c : Compiler) :
    compile_branches host (Node.eraseBranches branches) c = compile_branches host branches c := by
  cases branches with
  | nil => rfl
  | cons branch branches =>
    obtain ⟨cond, block⟩ := branch
    rw [Node.eraseBranches, compile_branches, compile_branches]
    simp only [compile_block_erase block, compile_branches_erase branches]

theorem compile_tail_erase (tail : Option Block) (c : Compiler) :
    compile_tail host (Node.eraseTail tail) c = compile_tail host tail c := by
  cases tail with
  | none => rfl
  | some block => exact compile_block_erase block c

theorem compile_block_erase (block : Block) (c : Compiler) :
    compile_block host (Node.eraseBlock block) c = compile_block host block c := by
  obtain ⟨l, r, nodes⟩ := block
  exact compile_nodes_erase nodes c

theorem compile_nodes_erase (nodes : List Node) (c : Compiler) :
    compile_nodes host (Node.eraseNodes nodes) c = compile_nodes host nodes c := by
  cases nodes with
  | nil => rfl
  | cons node nodes =>
    rw [Node.eraseNodes, compile_nodes, compile_nodes]
    simp only [compile_statement_erase node, compile_nodes_erase nodes]

end

theorem compile_types_erase (nodes : List Node) (c : Compiler) :
    compile_types host (Node.eraseNodes nodes) c = compile_types host nodes c := by
  induction nodes generalizing c with
  | nil => rfl
  | cons node nodes ih =>
    cases node with
    | Typedef tf =>
      have same : compile_typedef host tf.erase c = compile_typedef host tf c := by
        obtain ⟨l, r, name, l', r', is_struct, _ | stct, old⟩ := tf <;> rfl
      rw [Node.eraseNodes, Node.erase, compile_types, compile_types, same]
      simp only [ih]
    | _ => exact ih c

theorem compile_global_erase (nodes : List Node) (c : Compiler) :
    compile_global host (Node.eraseNodes nodes) c = compile_global host nodes c := by
  induction nodes generalizing c with
  | nil => rfl
  | cons node nodes ih =>
    cases node with
    | Declaration decl =>
      obtain ⟨l, r, var_name, _ | var_type, expr⟩ := decl
      · exact ih _
      · rw [Node.eraseNodes, Node.erase, compile_global, compile_global]
        simp only [Declaration.erase, Option.map_some, VarType.erase, ih]
    | _ => exact ih c

theorem compile_funcs_erase (nodes : List Node) (c : Compiler) :
    compile_funcs host (Node.eraseNodes nodes) c = compile_funcs host nodes c := by
  induction nodes generalizing c with
  | nil => rfl
  | cons node nodes ih =>
    cases node with
    | Function l r name args returns block =>
      rw [Node.eraseNodes, Node.erase, compile_funcs, compile_funcs]
      simp only [compile_func, compile_block_erase, ih]
    | _ => exact ih c

theorem compile_erase (ast : Root) (c : Compiler) : compile host ast.erase c = compile host ast c := by
  obtain ⟨l, r, ⟨l', r', nodes⟩⟩ := ast
  have nodes_erase : (Root.erase ⟨l, r, .mk l' r' nodes⟩).nodes = Node.eraseNodes nodes := rfl
  rw [compile, compile, nodes_erase]
  simp only [Root.nodes, Block.nodes_, compile_types_erase, compile_global_erase, compile_funcs_erase]

end Compiler

open Lexer Grammar TokenStream

/-- Sources with the same tokens, but for blanks behind the first one, have the same code, and so has the
canonical text. -/
theorem layout_free (host : Host) {src : Bytes} {tree : Root} (accepted : Accepts src tree) :
    (∀ src', visible src' = visible src → ∃ tree', Accepts src' tree' ∧
        Compiler.compile host tree' .init = Compiler.compile host tree .init) ∧
      (Followed (·.type_ = .Symbol) (visible src) → (∀ v ∈ visible src, v.Kept) →
        tree.Within Counted.one_value → ∃ again, Accepts tree.format again ∧
          Compiler.compile host again .init = Compiler.compile host tree .init) := by
  have code : ∀ {tree' : Root}, tree'.erase = tree.erase →
      Compiler.compile host tree' .init = Compiler.compile host tree .init := by
    intro tree' same
    rw [← Compiler.compile_erase, same, Compiler.compile_erase]
  constructor
  · intro src' seen
    obtain ⟨tree', accepted', same⟩ := accepts_visible accepted seen
    exact ⟨tree', accepted', code same⟩
  · intro named kept one
    obtain ⟨again, accepted', same⟩ := format_again accepted named kept one
    exact ⟨again, accepted', code same⟩

theorem layout_free_sample : ∃ tree tree' again c, Accepts (bytes "func main()\x7bprint(2)\x7d") tree ∧
    Accepts (bytes "func  main ( )\t\x7b print( 2 ) \x7d ") tree' ∧ Accepts tree.format again ∧
    c.program_ ≠ [] ∧ Compiler.compile .plain tree .init = some c ∧
    Compiler.compile .plain tree' .init = some c ∧ Compiler.compile .plain again .init = some c := by
  obtain ⟨tree, accepted, code⟩ := accepts_test (bytes "func main()\x7bprint(2)\x7d") 20
    (P := fun tree => decide (tree.Within Counted.one_value) &&
      (Compiler.compile .plain tree .init).any fun c => !c.program_.isEmpty) (by decide +kernel)
  simp only [Bool.and_eq_true, decide_eq_true_eq, Option.any_eq_true, Bool.not_eq_true',
    List.isEmpty_eq_false_iff] at code
  obtain ⟨one, c, compiled, some_⟩ := code
  obtain ⟨blanks, text⟩ := layout_free .plain accepted
  obtain ⟨tree', accepted', same⟩ := blanks (bytes "func  main ( )\t\x7b print( 2 ) \x7d ") (by decide +kernel)
  have seen : visible (bytes "func main()\x7bprint(2)\x7d") =
      [.make .Func 4, .CreateSymbol 4 (bytes "main"), .make .LParent 1, .make .RParent 1, .make .LBrace 1,
        .CreateSymbol 5 (bytes "print"), .make .LParent 1, .CreateInt 1 2, .make .RParent 1, .make .RBrace 1,
        .make .Enf 0] := by decide +kernel
  rw [seen] at text
  obtain ⟨again, accepted'', same'⟩ :=
    text (by simp [Followed, Value.make, Value.CreateSymbol, Value.CreateInt]) (kept_all rfl) one
  exact ⟨tree, tree', again, c, accepted, accepted', accepted'', some_, compiled, same.trans compiled,
    same'.trans compiled⟩

end Mygo
