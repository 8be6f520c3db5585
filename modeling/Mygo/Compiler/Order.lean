import Mygo.Compiler.Types
import Mygo.Compiler.Simulation

namespace Mygo

namespace TypeTable

variable {host host' : Host} {table : TypeTable}

def Distinct (table : TypeTable) : Prop := (table.map (·.name)).Nodup

/-- The orders of both hosts give the same type for every name. -/
def Alike (host host' : Host) (table : TypeTable) : Prop :=
  ∀ name, table.findByName host name = table.findByName host' name

theorem Distinct.find (h : Distinct table) {info : TypeInfo} (member : info ∈ table) (host : Host) :
    table.findByName host info.name = some info := by
  have perm := host.order_perm table
  rw [findByName]
  cases found : (host.order table).find? fun other => other.name = info.name with
  | none =>
    have absent := List.find?_eq_none.mp found info (perm.mem_iff.mpr member)
    exact absurd (decide_eq_true rfl) absent
  | some other =>
    have same : other.name = info.name := by simpa using List.find?_some found
    have inside := perm.mem_iff.mp (List.mem_of_find?_eq_some found)
    rw [List.inj_on_of_nodup_map h inside member same]

theorem Distinct.alike (h : Distinct table) (host host' : Host) : Alike host host' table := by
  intro name
  by_cases known : ∃ info ∈ table, info.name = name
  · obtain ⟨info, member, rfl⟩ := known
    rw [h.find member host, h.find member host']
  · have none : ∀ host : Host, table.findByName host name = none := by
      intro host
      rw [findByName, List.find?_eq_none]
      intro info inside same
      exact known ⟨info, (host.order_perm table).mem_iff.mp inside, of_decide_eq_true same⟩
    rw [none host, none host']

end TypeTable

namespace Compiler

open TypeTable

variable {host host' : Host} {c c' : Compiler}

mutual

theorem exprCode_rounded (rounded : host'.f32 = host.f32) (e : Expr) (k : Int) :
    exprCode host' e k = exprCode host e k := by
  cases e with
  | TOKEN s e v => simp only [exprCode, literatureCode, f32u64, rounded]
  | OPS s e ops exprs => exact opsCode_rounded rounded ops exprs k
  | FUNCALL s e exprs => exact funcallCode_rounded rounded exprs k

theorem opsCode_rounded (rounded : host'.f32 = host.f32) (ops : List TokenType) (exprs : List Expr) (k : Int) :
    opsCode host' ops exprs k = opsCode host ops exprs k := by
  cases exprs with
  | nil => rfl
  | cons e es =>
    rw [opsCode, opsCode, exprCode_rounded rounded e k]
    simp only [chainCode_rounded rounded ops es]

theorem chainCode_rounded (rounded : host'.f32 = host.f32) (ops : List TokenType) (es : List Expr)
    (origin top : Int) : chainCode host' origin top ops es = chainCode host origin top ops es := by
  cases ops with
  | nil => rw [chainCode, chainCode]
  | cons t ops =>
    cases es with
    | nil => rfl
    | cons e es =>
      rw [chainCode, chainCode, exprCode_rounded rounded e top, chainCode_rounded rounded ops es origin top]

theorem funcallCode_rounded (rounded : host'.f32 = host.f32) (exprs : List Expr) (k : Int) :
    funcallCode host' exprs k = funcallCode host exprs k := by
  cases exprs with
  | nil => rfl
  | cons f args => rw [funcallCode, funcallCode, argsCode_rounded rounded args k]

theorem argsCode_rounded (rounded : host'.f32 = host.f32) (es : List Expr) (k : Int) :
    argsCode host' es k = argsCode host es k := by
  cases es with
  | nil => rfl
  | cons e es => rw [argsCode, argsCode, exprCode_rounded rounded e k, argsCode_rounded rounded es k]

end

theorem compile_expr_rounded (rounded : host'.f32 = host.f32) (e : Expr) (c : Compiler) :
    compile_expr host' e c = compile_expr host e c := by
  rw [compile_expr_eq, compile_expr_eq, exprCode_rounded rounded]

theorem compile_assignment_rounded (rounded : host'.f32 = host.f32) (asgm : Assignment) (c : Compiler) :
    compile_assignment host' asgm c = compile_assignment host asgm c := by
  simp only [compile_assignment, compile_expr_rounded rounded]

theorem compile_declaration_alike (decl : Declaration) (alike : Alike host host' c.type_table_) :
    compile_declaration host' decl c = compile_declaration host decl c := by
  unfold compile_declaration
  simp only [alike _]

mutual

theorem compile_statement_alike (rounded : host'.f32 = host.f32) (stmt : Node) {c c' : Compiler}
    (alike : Alike host host' c.type_table_) (h : compile_statement host stmt c = some c') :
    compile_statement host' stmt c = some c' ∧ c'.type_table_ = c.type_table_ := by
  cases stmt with
  | Declaration decl =>
    have same := compile_declaration_alike decl alike
    obtain ⟨-, -, kept⟩ := declaration_effect host h
    exact ⟨same.trans h, kept.table⟩
  | Assignment asgm =>
    obtain ⟨var, code, -, -, rfl⟩ := assignment_effect host h
    exact ⟨(compile_assignment_rounded rounded asgm c).trans h, rfl⟩
  | Expr e =>
    have same := compile_expr_rounded rounded e c
    obtain ⟨code, -, rfl⟩ := Option.map_eq_some_iff.mp ((compile_expr_eq host e c).symm.trans h)
    exact ⟨same.trans h, rfl⟩
  | If s e branches tail =>
    obtain ⟨c₁, h₁, h⟩ := Option.bind_eq_some_iff.mp h
    obtain ⟨c₂, h₂, h⟩ := Option.bind_eq_some_iff.mp h
    cases h
    have opened : Alike host host'
        (c.alloc_new_label.2.emit [⟨.JumpEqI32, 0, 0, c.alloc_new_label.1⟩]).type_table_ := alike
    obtain ⟨run₁, table₁⟩ := compile_branches_alike rounded branches opened h₁
    obtain ⟨run₂, table₂⟩ := compile_tail_alike rounded tail (table₁ ▸ opened) h₂
    refine ⟨?_, table₂.trans table₁⟩
    rw [compile_statement, run₁, Option.bind_eq_bind, Option.bind_some, run₂]
    rfl
  | Function s e name args returns block =>
    cases h
    exact ⟨rfl, rfl⟩
  | Return ret =>
    cases h
    exact ⟨rfl, rfl⟩
  | For s e init cond step block => exact compile_block_alike rounded block alike h
  | Typedef tf =>
    cases h
    exact ⟨rfl, rfl⟩

theorem compile_branches_alike (rounded : host'.f32 = host.f32) (branches : List (Expr × Block)) {c c' : Compiler}
    (alike : Alike host host' c.type_table_) (h : compile_branches host branches c = some c') :
    compile_branches host' branches c = some c' ∧ c'.type_table_ = c.type_table_ := by
  cases branches with
  | nil =>
    cases h
    exact ⟨rfl, rfl⟩
  | cons branch branches =>
    obtain ⟨c₁, h₁, h⟩ := Option.bind_eq_some_iff.mp h
    obtain ⟨run₁, table₁⟩ := compile_block_alike rounded branch.2 alike h₁
    obtain ⟨run₂, table₂⟩ := compile_branches_alike rounded branches (table₁ ▸ alike) h
    exact ⟨by rw [compile_branches, run₁]; exact run₂, table₂.trans table₁⟩

theorem compile_tail_alike (rounded : host'.f32 = host.f32) (tail : Option Block) {c c' : Compiler}
    (alike : Alike host host' c.type_table_) (h : compile_tail host tail c = some c') :
    compile_tail host' tail c = some c' ∧ c'.type_table_ = c.type_table_ := by
  cases tail with
  | none =>
    cases h
    exact ⟨rfl, rfl⟩
  | some block => exact compile_block_alike rounded block alike h

theorem compile_block_alike (rounded : host'.f32 = host.f32) (block : Block) {c c' : Compiler}
    (alike : Alike host host' c.type_table_) (h : compile_block host block c = some c') :
    compile_block host' block c = some c' ∧ c'.type_table_ = c.type_table_ := by
  cases block with
  | mk s e nodes => exact compile_nodes_alike rounded nodes alike h

theorem compile_nodes_alike (rounded : host'.f32 = host.f32) (nodes : List Node) {c c' : Compiler}
    (alike : Alike host host' c.type_table_) (h : compile_nodes host nodes c = some c') :
    compile_nodes host' nodes c = some c' ∧ c'.type_table_ = c.type_table_ := by
  cases nodes with
  | nil =>
    cases h
    exact ⟨rfl, rfl⟩
  | cons stmt nodes =>
    obtain ⟨c₁, h₁, h⟩ := Option.bind_eq_some_iff.mp h
    obtain ⟨run₁, table₁⟩ := compile_statement_alike rounded stmt alike h₁
    obtain ⟨run₂, table₂⟩ := compile_nodes_alike rounded nodes (table₁ ▸ alike) h
    exact ⟨by rw [compile_nodes, run₁]; exact run₂, table₂.trans table₁⟩

end

theorem compile_funcs_alike (rounded : host'.f32 = host.f32) {nodes : List Node} {c c' : Compiler}
    (alike : Alike host host' c.type_table_) (h : compile_funcs host nodes c = some c') :
    compile_funcs host' nodes c = some c' ∧ c'.type_table_ = c.type_table_ := by
  induction nodes generalizing c with
  | nil =>
    cases h
    exact ⟨rfl, rfl⟩
  | cons node nodes ih =>
    cases node with
    | Function s e func_name args returns block =>
      obtain ⟨c₁, h₁, h⟩ := Option.bind_eq_some_iff.mp h
      obtain ⟨c₀, h₀, h₁⟩ := Option.bind_eq_some_iff.mp h₁
      have start : Alike host host' (c.setCurrentFunc (.new func_name)).type_table_ := alike
      obtain ⟨run₀, table₀⟩ := compile_block_alike rounded block start h₀
      cases h₁
      have left : Alike host host' c₀.type_table_ := table₀ ▸ start
      obtain ⟨run, table⟩ := @ih
        { c₀ with func_table_ := c₀.func_table_ ++ [c₀.current_func_.FinishCompiling] } left h
      refine ⟨?_, table.trans table₀⟩
      rw [compile_funcs, compile_func, run₀]
      exact run
    | Declaration | Assignment | Expr | If | Return | For | Typedef => exact ih alike h

theorem compile_fields_alike {table : TypeTable} (alike : Alike host host' table)
    (fields : List (Bytes × Bytes)) (info : TypeInfo) :
    compile_fields host' table fields info = compile_fields host table fields info := by
  induction fields generalizing info with
  | nil => rfl
  | cons field fields ih =>
    rw [compile_fields, compile_fields, alike]
    exact congrArg _ (funext fun _ => ih _)

theorem compile_typedef_alike {tf : Typedef} (alike : Alike host host' c.type_table_) :
    compile_typedef host' tf c = compile_typedef host tf c := by
  simp only [compile_typedef, compile_fields_alike alike]

theorem compile_types_alike {names : List Bytes} {nodes : List Node} (h : Named names c.type_table_)
    (few : names.length + nodes.length ≤ 200000) (shaped : Node.ShapedAll nodes)
    (different : (names ++ (nodes.flatMap Node.typedef).map (·.new_name_)).Nodup) :
    compile_types host' nodes c = compile_types host nodes c := by
  induction nodes generalizing names c with
  | nil => rfl
  | cons node nodes ih =>
    rw [List.length_cons] at few
    cases node with
    | Typedef tf =>
      have unique : Distinct c.type_table_ := by
        rw [Distinct, h.names]
        exact different.of_append_left
      rw [compile_types, compile_types, compile_typedef_alike (unique.alike host host')]
      rcases @compile_typedef_cases host _ _ _ h (by omega) shaped.1 with ⟨-, c₁, step, named, -⟩ | ⟨-, crash⟩
      · simp only [step, Option.bind_eq_bind, Option.bind_some]
        refine ih named (by rw [List.length_append, List.length_singleton]; omega) shaped.2 ?_
        rwa [List.append_assoc]
      · rw [crash]
        rfl
    | Declaration | Assignment | Expr | If | Function | Return | For =>
      exact ih h (by omega) shaped.2 different

theorem compile_global_alike {nodes : List Node} (alike : Alike host host' c.type_table_) :
    compile_global host' nodes c = compile_global host nodes c := by
  induction nodes generalizing c with
  | nil => rfl
  | cons node nodes ih =>
    cases node with
    | Declaration decl =>
      rw [compile_global, compile_global]
      cases decl.var_type with
      | none => exact ih alike
      | some var_type =>
        simp only [← alike var_type.name_]
        exact congrArg _ (funext fun _ => ih alike)
    | Assignment | Expr | If | Function | Return | For | Typedef => exact ih alike

end Compiler

open Compiler TypeTable in
/-- The compiled program does not depend on the order of enumeration exactly when no type definition
repeats a name. -/
theorem Root.order_free_iff {src : Bytes} {rounds : Nat} {ast : Root} {host : Host} {c : Compiler}
    (parsed : (Root.parse rounds (TokenStream.init src)).value = some ast)
    (compiled : compile host ast .init = some c) :
    ((∀ host' : Host, host'.f32 = host.f32 → ∃ c', compile host' ast .init = some c' ∧
        c'.program_ = c.program_ ∧ c'.type_table_ = c.type_table_ ∧ c'.errors_ = c.errors_) ∧
      Distinct c.type_table_) ↔ ast.type_names.Nodup := by
  have shaped := shaped_of_parsed parsed
  have few : basicNames.length + ast.nodes.length ≤ 200000 := by
    have count := shaped.count
    have four : basicNames.length = 4 := rfl
    omega
  have basic : Named basicNames init.type_table_ := named_basic
  obtain ⟨c₁, types, rest⟩ := Option.bind_eq_some_iff.mp compiled
  obtain ⟨c₂, globals, rest⟩ := Option.bind_eq_some_iff.mp rest
  obtain ⟨c₃, funcs, rest⟩ := Option.bind_eq_some_iff.mp rest
  cases rest
  obtain ⟨-, -, table₂⟩ := compile_global_kept host globals
  obtain ⟨-, -, -, table₃, -⟩ := compiled_funcs host (compiled_func host .unused) funcs
  have named : Named ast.type_names c₁.type_table_ := by
    rcases compile_types_cases host basic few shaped.nodes with ⟨-, c', same, named, -⟩ | ⟨-, crash⟩
    · cases types.symm.trans same
      exact named
    · exact nomatch types.symm.trans crash
  have unique_iff : Distinct c₃.link.type_table_ ↔ ast.type_names.Nodup := by
    rw [Distinct, show c₃.link.type_table_ = c₁.type_table_ from table₃.trans table₂, named.names]
  constructor
  · rintro ⟨-, unique⟩
    exact unique_iff.mp unique
  · intro different
    refine ⟨fun host' rounded => ⟨_, ?_, rfl, rfl, rfl⟩, unique_iff.mpr different⟩
    have unique : Distinct c₁.type_table_ := by rwa [Distinct, named.names]
    have alike : Alike host host' c₁.type_table_ := unique.alike host host'
    have types' : compile_types host' ast.nodes .init = some c₁ :=
      (compile_types_alike basic few shaped.nodes different).trans types
    have globals' : compile_global host' ast.nodes c₁ = some c₂ := (compile_global_alike alike).trans globals
    have funcs' := (compile_funcs_alike rounded (table₂ ▸ alike) funcs).1
    simp only [compile, types', globals', funcs', Option.bind_eq_bind, Option.bind_some]

def Host.reversed : Host := ⟨fun _ => 0, List.reverse, fun l => l.reverse_perm⟩

theorem Root.order_free_sample : ∃ ast c,
    (Root.parse 20 (TokenStream.init
      (bytes "type struct {
a int
} T
func main(){
var x T = 1
}
"))).value = some ast ∧
    Compiler.compile .plain ast .init = some c ∧ ∃ c', Compiler.compile .reversed ast .init = some c' ∧
      c'.program_ = c.program_ ∧ c'.type_table_ = c.type_table_ ∧ c'.errors_ = c.errors_ := by
  have run : ((Root.parse 20 (TokenStream.init
      (bytes "type struct {
a int
} T
func main(){
var x T = 1
}
"))).value.any fun ast =>
        (Compiler.compile .plain ast .init).isSome && decide ast.type_names.Nodup) = true := by
    decide +kernel
  simp only [Option.any_eq_true, Bool.and_eq_true, Option.isSome_iff_exists, decide_eq_true_eq] at run
  obtain ⟨ast, parsed, ⟨c, compiled⟩, different⟩ := run
  exact ⟨ast, c, parsed, compiled, ((order_free_iff parsed compiled).mpr different).1 .reversed rfl⟩

/-- With a second type `int` a local takes four bytes or none. -/
theorem Root.repeated_name_ordered : ∃ ast c c',
    (Root.parse 20 (TokenStream.init
      (bytes "type int int
func main(){
var x int = 0
x = 1
}
"))).value = some ast ∧
    Compiler.compile .plain ast .init = some c ∧ Compiler.compile .reversed ast .init = some c' ∧
      c.program_.length = 5 ∧ c'.program_.length = 1 := by
  have run : ((Root.parse 20 (TokenStream.init
      (bytes "type int int
func main(){
var x int = 0
x = 1
}
"))).value.any fun ast =>
        (Compiler.compile .plain ast .init).any fun c => (Compiler.compile .reversed ast .init).any fun c' =>
          c.program_.length == 5 && c'.program_.length == 1) = true := by
    decide +kernel
  simp only [Option.any_eq_true, Bool.and_eq_true, beq_iff_eq] at run
  obtain ⟨ast, parsed, c, compiled, c', compiled', five, one⟩ := run
  exact ⟨ast, c, c', parsed, compiled, compiled', five, one⟩

end Mygo
