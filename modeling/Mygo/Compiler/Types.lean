import Mygo.Compiler.Codegen
import Mygo.Parser.Shapes

namespace Mygo

def basicNames : List Bytes := [bytes "bool", bytes "int", bytes "float32", bytes "string"]

def Declaration.defined (names : List Bytes) (decl : Declaration) : Bool :=
  decl.var_type.any fun t => names.contains t.name_

def Typedef.defined (names : List Bytes) (tf : Typedef) : Bool :=
  !tf.old_type_.is_struct_ ||
    tf.old_type_.stct_.all fun stct => stct.fields_.all fun field => names.contains field.2

section Collect

variable {β : Type}

mutual

def Node.collect (own : Node → List β) : Node → List β
  | .Declaration decl => own (.Declaration decl)
  | .Assignment asgm => own (.Assignment asgm)
  | .Expr e => own (.Expr e)
  | .If start end_ branches tail =>
    own (.If start end_ branches tail) ++ (Node.collectBranches own branches ++ Node.collectTail own tail)
  | .Function start end_ name args returns block =>
    own (.Function start end_ name args returns block) ++ block.collect own
  | .Return ret => own (.Return ret)
  | .For start end_ init cond step block => own (.For start end_ init cond step block) ++ block.collect own
  | .Typedef tf => own (.Typedef tf)

def Node.collectBranches (own : Node → List β) : List (Expr × Block) → List β
  | [] => []
  | (_, block) :: branches => block.collect own ++ Node.collectBranches own branches

def Node.collectTail (own : Node → List β) : Option Block → List β
  | none => []
  | some block => block.collect own

def Block.collect (own : Node → List β) : Block → List β
  | .mk _ _ nodes => Node.collectAll own nodes

def Node.collectAll (own : Node → List β) : List Node → List β
  | [] => []
  | node :: nodes => node.collect own ++ Node.collectAll own nodes

end

end Collect

def Node.declaration : Node → List Mygo.Declaration
  | .Declaration decl => [decl]
  | .For _ _ init _ _ _ => init.toList
  | _ => []

def Node.declarations (node : Node) : List Mygo.Declaration := node.collect Node.declaration

mutual

/-- The declarations that `compile_statement` passes over: those in the heads of loops and in inner
functions. -/
def Node.skipped : Node → List Mygo.Declaration
  | .If _ _ branches tail => Node.skippedBranches branches ++ Node.skippedTail tail
  | .Function _ _ _ _ _ block => block.collect Node.declaration
  | .For _ _ init _ _ block => init.toList ++ block.skipped
  | _ => []

def Node.skippedBranches : List (Expr × Block) → List Mygo.Declaration
  | [] => []
  | (_, block) :: branches => block.skipped ++ Node.skippedBranches branches

def Node.skippedTail : Option Block → List Mygo.Declaration
  | none => []
  | some block => block.skipped

def Block.skipped : Block → List Declaration
  | .mk _ _ nodes => Node.skippedAll nodes

def Node.skippedAll : List Node → List Mygo.Declaration
  | [] => []
  | node :: nodes => node.skipped ++ Node.skippedAll nodes

end

/-- The declarations of a program that are in no compiled statement: outside the functions, or
passed over. -/
def Node.unreported : Node → List Mygo.Declaration
  | .Function _ _ _ _ _ block => block.skipped
  | node => node.declarations

def Node.typedef : Node → List Mygo.Typedef
  | .Typedef tf => [tf]
  | _ => []

/-- Type definitions below a node of a program, which `compile_types` does not come to. -/
def Node.inner_typedefs : Node → List Mygo.Typedef
  | .Typedef _ => []
  | node => node.collect Node.typedef

namespace Root

def type_names (ast : Root) : List Bytes :=
  basicNames ++ (ast.nodes.flatMap Node.typedef).map (·.new_name_)

def undefined_fields : List Bytes → List Node → Nat
  | _, [] => 0
  | names, node :: nodes =>
    node.typedef.countP (!·.defined names) + undefined_fields (names ++ node.typedef.map (·.new_name_)) nodes

def undefined (ast : Root) : Nat :=
  undefined_fields basicNames ast.nodes +
    (ast.nodes.flatMap Node.inner_typedefs).countP (!·.defined ast.type_names) +
    (ast.nodes.flatMap Node.declarations).countP (!·.defined ast.type_names)

/-- A type is only missing in a declaration of a compiled statement. -/
def declared (ast : Root) : Bool :=
  undefined_fields basicNames ast.nodes == 0 &&
    (ast.nodes.flatMap Node.inner_typedefs).all (·.defined ast.type_names) &&
    (ast.nodes.flatMap Node.unreported).all (·.defined ast.type_names)

end Root

namespace TypeTable

structure Named (names : List Bytes) (table : TypeTable) : Prop where
  names : table.map (·.name) = names
  ids : ∀ info ∈ table, info.type_id ≤ 10 * table.length
  max : max_type_id table = 10 * table.length

variable {names : List Bytes} {table : TypeTable} {info : TypeInfo}

theorem named_basic : Named basicNames initBasicInfos := ⟨rfl, by decide, rfl⟩

theorem Named.find (h : Named names table) (host : Host) (name : Bytes) :
    (findByName host table name).isSome = names.contains name := by
  rw [findByName, Bool.eq_iff_iff, List.find?_isSome, List.contains_iff_mem, ← h.names, List.mem_map]
  constructor
  · rintro ⟨info, member, same⟩
    exact ⟨info, (host.order_perm table).mem_iff.mp member, of_decide_eq_true same⟩
  · rintro ⟨info, member, same⟩
    exact ⟨info, (host.order_perm table).mem_iff.mpr member, decide_eq_true same⟩

theorem i32_small {x : Int} (low : 0 ≤ x) (high : x < 2 ^ 31) : i32 x = x := by
  apply Int.bmod_eq_of_le
  · omega
  · omega

theorem Named.insert (h : Named names table) (few : names.length < 200000)
    (id : info.type_id = i32 (max_type_id table + 10)) :
    Named (names ++ [info.name]) (table.insert info) := by
  have count : table.length = names.length := by rw [← h.names, List.length_map]
  have next : info.type_id = 10 * table.length + 10 := by
    rw [id, h.max]
    exact i32_small (by omega) (by omega)
  have above : max_type_id table < info.type_id := by
    rw [h.max, next]
    exact lt_add_of_pos_right _ (by norm_num)
  have below : ∀ old ∈ table, old.type_id < info.type_id := fun old member =>
    ((h.ids old member).trans h.max.ge).trans_lt above
  have fresh : table.any (fun old => old.type_id = info.type_id) = false := by
    rw [List.any_eq_false]
    exact fun old member same => (below old member).ne (of_decide_eq_true same)
  have last : info.type_id = 10 * ((table ++ [info]).length : Int) := by
    rw [next, List.length_append, List.length_singleton, Nat.cast_add, Nat.cast_one, mul_add, mul_one]
  rw [TypeTable.insert, if_neg (Bool.not_eq_true _ ▸ fresh)]
  refine ⟨?_, ?_, ?_⟩
  · rw [List.map_append, h.names]
    rfl
  · rw [← last]
    exact List.forall_mem_append.mpr
      ⟨fun old member => (below old member).le, List.forall_mem_singleton.mpr le_rfl⟩
  · rw [← last, max_type_id, List.foldl_append, ← max_type_id]
    exact if_pos above

end TypeTable

namespace Compiler

open TypeTable

variable {host : Host} {names : List Bytes}

theorem compile_fields_isSome {table : TypeTable} (h : Named names table) (host : Host)
    (fields : List (Bytes × Bytes)) (info : TypeInfo) :
    (compile_fields host table fields info).isSome = fields.all (fun field => names.contains field.2) := by
  induction fields generalizing info with
  | nil => rfl
  | cons field fields ih =>
    have found := h.find host field.2
    rw [compile_fields, List.all_cons]
    cases lookup : findByName host table field.2 with
    | none =>
      rw [lookup] at found
      rw [← found]
      rfl
    | some field_info =>
      rw [lookup] at found
      rw [← found]
      exact ih _

theorem compile_fields_kept {table : TypeTable} {fields : List (Bytes × Bytes)} {info info' : TypeInfo}
    (h : compile_fields host table fields info = some info') :
    info'.name = info.name ∧ info'.type_id = info.type_id := by
  induction fields generalizing info with
  | nil =>
    cases h
    exact ⟨rfl, rfl⟩
  | cons field fields ih =>
    obtain ⟨field_info, -, rest⟩ := Option.bind_eq_some_iff.mp h
    exact @ih { info with
      size := i32 (info.size + field_info.size)
      fields := info.fields ++ [(field_info.type_id, field.1)] } rest

theorem compile_typedef_cases {tf : Typedef} {c : Compiler} (h : Named names c.type_table_)
    (few : names.length < 200000) (shaped : tf.Shaped) :
    (tf.defined names = true ∧ ∃ c', compile_typedef host tf c = some c' ∧
      Named (names ++ [tf.new_name_]) c'.type_table_ ∧ c'.errors_ = c.errors_) ∨
    tf.defined names = false ∧ compile_typedef host tf c = none := by
  let new : TypeInfo := ⟨i32 (c.type_table_.max_type_id + 10), 0, tf.new_name_, false, -1, []⟩
  rw [compile_typedef, Typedef.defined]
  cases struct : tf.old_type_.is_struct_ with
  | false =>
    have inserted : Named (names ++ [new.name]) (c.type_table_.insert new) := h.insert few rfl
    exact .inl ⟨rfl, _, rfl, inserted, rfl⟩
  | true =>
    obtain ⟨stct, some⟩ := Option.ne_none_iff_exists'.mp (shaped struct)
    have found := compile_fields_isSome h host stct.fields_ { new with is_struct := true }
    simp only [some, if_true, Option.bind_eq_bind, Option.bind_some, Option.all_some, ← found]
    cases fields : compile_fields host c.type_table_ stct.fields_ { new with is_struct := true } with
    | none => exact .inr ⟨rfl, rfl⟩
    | some info =>
      obtain ⟨name, id⟩ := compile_fields_kept fields
      refine .inl ⟨rfl, _, rfl, ?_, rfl⟩
      have inserted : Named (names ++ [info.name]) (c.type_table_.insert info) := h.insert few id
      rwa [name] at inserted

theorem compile_types_cases (host : Host) {nodes : List Node} {c : Compiler} (h : Named names c.type_table_)
    (few : names.length + nodes.length ≤ 200000) (shaped : Node.ShapedAll nodes) :
    (Root.undefined_fields names nodes = 0 ∧ ∃ c', compile_types host nodes c = some c' ∧
      Named (names ++ (nodes.flatMap Node.typedef).map (·.new_name_)) c'.type_table_ ∧ c'.errors_ = c.errors_) ∨
    Root.undefined_fields names nodes ≠ 0 ∧ compile_types host nodes c = none := by
  induction nodes generalizing names c with
  | nil => exact .inl ⟨rfl, c, rfl, by simpa using h, rfl⟩
  | cons node nodes ih =>
    rw [List.length_cons] at few
    cases node with
    | Typedef tf =>
      rcases compile_typedef_cases h (by omega) shaped.1 with
        ⟨defined, c₁, step, named, errors⟩ | ⟨missing, crash⟩
      · have next : compile_types host (.Typedef tf :: nodes) c = compile_types host nodes c₁ := by
          rw [compile_types, step]
          rfl
        have rest := ih named (by rw [List.length_append, List.length_singleton]; omega) shaped.2
        rw [next, ← errors]
        simpa [Root.undefined_fields, Node.typedef, defined] using rest
      · refine .inr ⟨?_, ?_⟩
        · simp [Root.undefined_fields, Node.typedef, missing]
        · rw [compile_types, crash]
          rfl
    | Declaration | Assignment | Expr | If | Function | Return | For =>
      have rest := ih h (by omega) shaped.2
      simpa [Root.undefined_fields, Node.typedef, compile_types] using rest

mutual

theorem exprCode_shaped (e : Expr) (shaped : e.Shaped) (k : Int) : ∃ code, exprCode host e k = some code := by
  cases e with
  | TOKEN start end_ v => exact ⟨_, rfl⟩
  | OPS start end_ ops exprs =>
    obtain ⟨count, all⟩ := shaped
    cases exprs with
    | nil => simp at count
    | cons e es =>
      obtain ⟨code, first⟩ := exprCode_shaped e all.1 k
      rw [exprCode, opsCode, first, Option.bind_eq_bind, Option.bind_some]
      split
      · exact ⟨_, rfl⟩
      · next binary =>
        have enough : ops.length = es.length := by
          rcases count with same | ⟨minus, single⟩
          · exact (Nat.succ.inj same).symm
          · exact absurd ⟨minus, List.length_eq_zero_iff.mp (Nat.succ.inj single)⟩ binary
        obtain ⟨rest, chain⟩ := chainCode_shaped ops es all.2 enough k (i32 (k + 4))
        exact ⟨_, by rw [chain]; rfl⟩
  | FUNCALL start end_ exprs =>
    cases exprs with
    | nil => exact ⟨_, rfl⟩
    | cons f args =>
      obtain ⟨code, found⟩ := argsCode_shaped args shaped.2 k
      exact ⟨_, by rw [exprCode, funcallCode, found]; rfl⟩

theorem chainCode_shaped (ops : List TokenType) (es : List Expr) (shaped : Expr.ShapedAll es)
    (enough : ops.length = es.length) (origin top : Int) :
    ∃ code, chainCode host origin top ops es = some code := by
  cases ops with
  | nil => exact ⟨_, by rw [chainCode]⟩
  | cons t ops =>
    cases es with
    | nil => cases enough
    | cons e es =>
      obtain ⟨code, first⟩ := exprCode_shaped e shaped.1 top
      obtain ⟨rest, chain⟩ := chainCode_shaped ops es shaped.2 (Nat.succ.inj enough) origin top
      exact ⟨_, by rw [chainCode, first, Option.bind_eq_bind, Option.bind_some, chain]; rfl⟩

theorem argsCode_shaped (es : List Expr) (shaped : Expr.ShapedAll es) (k : Int) :
    ∃ code, argsCode host es k = some code := by
  cases es with
  | nil => exact ⟨_, rfl⟩
  | cons e es =>
    obtain ⟨code, first⟩ := exprCode_shaped e shaped.1 k
    obtain ⟨rest, more⟩ := argsCode_shaped es shaped.2 k
    exact ⟨_, by rw [argsCode, first, Option.bind_eq_bind, Option.bind_some, more]; rfl⟩

end

theorem compile_expr_shaped (host : Host) {e : Expr} (shaped : e.Shaped) (c : Compiler) :
    ∃ code, compile_expr host e c = some (c.emit code) := by
  obtain ⟨code, found⟩ := exprCode_shaped e shaped c.top
  exact ⟨code, by rw [compile_expr_eq, found]; rfl⟩

structure Reports (names : List Bytes) (found skipped : List Declaration) (c c' : Compiler) : Prop where
  table : c'.type_table_ = c.type_table_
  errors : c'.errors_.length + skipped.countP (!·.defined names) =
    c.errors_.length + found.countP (!·.defined names)

namespace Reports

variable {found skipped found' skipped' : List Declaration} {c c₁ c₂ : Compiler}

theorem silent (table : c₁.type_table_ = c.type_table_) (errors : c₁.errors_ = c.errors_) :
    Reports names [] [] c c₁ :=
  ⟨table, by rw [errors]⟩

theorem append (h : Reports names found skipped c c₁) (h' : Reports names found' skipped' c₁ c₂) :
    Reports names (found ++ found') (skipped ++ skipped') c c₂ := by
  refine ⟨h'.table.trans h.table, ?_⟩
  have first := h.errors
  have second := h'.errors
  rw [List.countP_append, List.countP_append]
  omega

theorem skip (h : Reports names found skipped c c₁) (decls : List Declaration) :
    Reports names (decls ++ found) (decls ++ skipped) c c₁ := by
  refine ⟨h.table, ?_⟩
  have same := h.errors
  rw [List.countP_append, List.countP_append]
  omega

end Reports

theorem compile_declaration_reports {decl : Declaration} {c : Compiler} (h : Named names c.type_table_)
    (typed : decl.var_type ≠ none) :
    ∃ c', compile_declaration host decl c = some c' ∧ Reports names [decl] [] c c' := by
  obtain ⟨t, some⟩ := Option.ne_none_iff_exists'.mp typed
  have lookup := h.find host t.name_
  cases found : c.type_table_.findByName host t.name_ with
  | none =>
    rw [found] at lookup
    have missing : decl.defined names = false := by
      rw [Declaration.defined, some, Option.any_some, ← lookup]
      rfl
    simp only [compile_declaration, some, found]
    refine ⟨_, rfl, rfl, ?_⟩
    simp [error, missing]
  | some s =>
    rw [found] at lookup
    have defined : decl.defined names = true := by
      rw [Declaration.defined, some, Option.any_some, ← lookup]
      rfl
    simp only [compile_declaration, some, found]
    refine ⟨_, rfl, rfl, ?_⟩
    simp [setStackTop, setVars, defined]

theorem compile_assignment_silent {asgm : Assignment} (c : Compiler) (shaped : asgm.expr.Shaped) :
    ∃ c', compile_assignment host asgm c = some c' ∧ Reports names [] [] c c' := by
  have entry : (c.subscript asgm.var_name).current_func_.var_address_map asgm.var_name ≠ none := by
    simp only [subscript, setVars, Scope.emplace]
    cases held : c.current_func_.var_address_map asgm.var_name <;> simp [held]
  obtain ⟨var, some⟩ := Option.ne_none_iff_exists'.mp entry
  obtain ⟨code, run⟩ := compile_expr_shaped host shaped (c.subscript asgm.var_name)
  simp only [compile_assignment, some, run, Option.bind_eq_bind, Option.bind_some]
  exact ⟨_, rfl, .silent rfl rfl⟩

mutual

theorem compile_statement_reports (node : Node) (shaped : node.Shaped) {c : Compiler}
    (h : Named names c.type_table_) :
    ∃ c', compile_statement host node c = some c' ∧ Reports names node.declarations node.skipped c c' := by
  cases node with
  | Declaration decl => exact compile_declaration_reports h shaped
  | Assignment asgm => exact compile_assignment_silent c shaped
  | Expr e =>
    obtain ⟨code, run⟩ := compile_expr_shaped host shaped c
    exact ⟨_, run, .silent rfl rfl⟩
  | If start end_ branches tail =>
    have named : Named names (c.alloc_new_label.2.emit [⟨.JumpEqI32, 0, 0, c.alloc_new_label.1⟩]).type_table_ := h
    obtain ⟨c₁, run₁, reports₁⟩ := compile_branches_reports branches shaped.1 named
    obtain ⟨c₂, run₂, reports₂⟩ := compile_tail_reports tail shaped.2 (reports₁.table ▸ named)
    refine ⟨c₂.emit [⟨.Label, c.alloc_new_label.1, 0, 0⟩], ?_, (reports₁.append reports₂).table,
      (reports₁.append reports₂).errors⟩
    rw [compile_statement, run₁, Option.bind_eq_bind, Option.bind_some, run₂]
    rfl
  | Function start end_ name args returns block =>
    exact ⟨c, rfl, rfl, rfl⟩
  | Return ret => exact ⟨c, rfl, .silent rfl rfl⟩
  | For start end_ init cond step block =>
    obtain ⟨c', run, reports⟩ := compile_block_reports block shaped h
    exact ⟨c', run, reports.skip init.toList⟩
  | Typedef tf => exact ⟨c, rfl, .silent rfl rfl⟩

theorem compile_branches_reports (branches : List (Expr × Block)) (shaped : Node.ShapedBranches branches)
    {c : Compiler} (h : Named names c.type_table_) :
    ∃ c', compile_branches host branches c = some c' ∧
      Reports names (Node.collectBranches Node.declaration branches) (Node.skippedBranches branches) c c' := by
  cases branches with
  | nil => exact ⟨c, rfl, .silent rfl rfl⟩
  | cons branch branches =>
    obtain ⟨c₁, run₁, reports₁⟩ := compile_block_reports branch.2 shaped.1 h
    obtain ⟨c₂, run₂, reports₂⟩ := compile_branches_reports branches shaped.2 (reports₁.table ▸ h)
    exact ⟨c₂, by rw [compile_branches, run₁]; exact run₂, reports₁.append reports₂⟩

theorem compile_tail_reports (tail : Option Block) (shaped : Node.ShapedTail tail) {c : Compiler}
    (h : Named names c.type_table_) :
    ∃ c', compile_tail host tail c = some c' ∧
      Reports names (Node.collectTail Node.declaration tail) (Node.skippedTail tail) c c' := by
  cases tail with
  | none => exact ⟨c, rfl, .silent rfl rfl⟩
  | some block => exact compile_block_reports block shaped h

theorem compile_block_reports (block : Block) (shaped : block.Shaped) {c : Compiler}
    (h : Named names c.type_table_) :
    ∃ c', compile_block host block c = some c' ∧
      Reports names (block.collect Node.declaration) block.skipped c c' := by
  cases block with
  | mk start end_ nodes => exact compile_nodes_reports nodes shaped h

theorem compile_nodes_reports (nodes : List Node) (shaped : Node.ShapedAll nodes) {c : Compiler}
    (h : Named names c.type_table_) :
    ∃ c', compile_nodes host nodes c = some c' ∧
      Reports names (Node.collectAll Node.declaration nodes) (Node.skippedAll nodes) c c' := by
  cases nodes with
  | nil => exact ⟨c, rfl, .silent rfl rfl⟩
  | cons node nodes =>
    obtain ⟨c₁, run₁, reports₁⟩ := compile_statement_reports node shaped.1 h
    obtain ⟨c₂, run₂, reports₂⟩ := compile_nodes_reports nodes shaped.2 (reports₁.table ▸ h)
    exact ⟨c₂, by rw [compile_nodes, run₁]; exact run₂, reports₁.append reports₂⟩

end

theorem compile_funcs_reports (host : Host) {nodes : List Node} (shaped : Node.ShapedAll nodes) {c : Compiler}
    (h : Named names c.type_table_) :
    ∃ c', compile_funcs host nodes c = some c' ∧
      Reports names (nodes.flatMap Node.declarations) (nodes.flatMap Node.unreported) c c' := by
  induction nodes generalizing c with
  | nil => exact ⟨c, rfl, .silent rfl rfl⟩
  | cons node nodes ih =>
    rw [List.flatMap_cons, List.flatMap_cons]
    cases node with
    | Function start end_ name args returns block =>
      have named : Named names (c.setCurrentFunc (.new name)).type_table_ := h
      obtain ⟨c₁, run₁, reports₁⟩ := compile_block_reports block shaped.1 named
      obtain ⟨c₂, run₂, reports₂⟩ := @ih shaped.2
        { c₁ with func_table_ := c₁.func_table_ ++ [c₁.current_func_.FinishCompiling] }
        (show Named names c₁.type_table_ from reports₁.table ▸ named)
      have first : Reports names (Node.declarations (.Function start end_ name args returns block))
          (Node.unreported (.Function start end_ name args returns block)) c
          { c₁ with func_table_ := c₁.func_table_ ++ [c₁.current_func_.FinishCompiling] } :=
        ⟨reports₁.table, reports₁.errors⟩
      refine ⟨c₂, ?_, first.append reports₂⟩
      rw [compile_funcs, compile_func, run₁]
      exact run₂
    | Declaration | Assignment | Expr | If | Return | For | Typedef =>
      obtain ⟨c', run, reports⟩ := ih shaped.2 h
      exact ⟨c', run, reports.skip _⟩

theorem compile_global_cases (host : Host) {nodes : List Node} (shaped : Node.ShapedAll nodes) {c : Compiler}
    (h : Named names c.type_table_) :
    (∃ c', compile_global host nodes c = some c' ∧ c'.type_table_ = c.type_table_ ∧ c'.errors_ = c.errors_) ∨
    (∃ decl ∈ nodes.flatMap Node.unreported, decl.defined names = false) ∧
      compile_global host nodes c = none := by
  induction nodes generalizing c with
  | nil => exact .inl ⟨c, rfl, rfl, rfl⟩
  | cons node nodes ih =>
    rw [List.flatMap_cons]
    have later : (∃ decl ∈ nodes.flatMap Node.unreported, decl.defined names = false) →
        ∃ decl ∈ node.unreported ++ nodes.flatMap Node.unreported, decl.defined names = false :=
      fun ⟨decl, member, missing⟩ => ⟨decl, List.mem_append_right _ member, missing⟩
    cases node with
    | Declaration decl =>
      obtain ⟨t, some⟩ := Option.ne_none_iff_exists'.mp shaped.1
      have lookup := h.find host t.name_
      cases found : c.type_table_.findByName host t.name_ with
      | none =>
        rw [found] at lookup
        refine .inr ⟨⟨decl, List.mem_cons_self, ?_⟩, by simp [compile_global, some, found]⟩
        rw [Declaration.defined, some, Option.any_some, ← lookup]
        rfl
      | some info =>
        simp only [compile_global, some, found, Option.bind_eq_bind, Option.bind_some]
        exact (@ih shaped.2 { c with
          global_table_ := c.global_table_ ++ [⟨decl.var_name, info.type_id, 0, 0⟩] } h).imp_right (And.imp_left later)
    | Function | Assignment | Expr | If | Return | For | Typedef =>
      exact (ih shaped.2 h).imp_right (And.imp_left later)

end Compiler

theorem Root.shaped_of_parsed {src : Bytes} {rounds : Nat} {ast : Root}
    (parsed : (Root.parse rounds (TokenStream.init src)).value = some ast) : ast.Shaped := by
  have yields := yields_root rounds (TokenStream.init src)
  cases run : Root.parse rounds (TokenStream.init src) with
  | ok a t =>
    rw [run] at parsed yields
    cases parsed
    exact yields
  | err | abort | out_of_fuel =>
    rw [run] at parsed
    cases parsed

open Compiler in
/-- A parsed program is compiled, with an error for everything that lacks a type, exactly when types
are only missing in declarations of compiled statements. -/
theorem Root.compile_reports_iff {src : Bytes} {rounds : Nat} {ast : Root} (host : Host)
    (parsed : (Root.parse rounds (TokenStream.init src)).value = some ast) :
    (∃ c, compile host ast .init = some c ∧ ast.undefined ≤ c.errors_.length) ↔ ast.declared = true := by
  have shaped := shaped_of_parsed parsed
  have few : basicNames.length + ast.nodes.length ≤ 200000 := by
    have count := shaped.count
    have four : basicNames.length = 4 := rfl
    omega
  have none_missing {β : Type} (l : List β) (p : β → Bool) : l.countP (!p ·) = 0 ↔ l.all p = true := by
    simp [List.countP_eq_zero]
  simp only [declared, Bool.and_eq_true, beq_iff_eq, ← none_missing, undefined]
  have basic : TypeTable.Named basicNames init.type_table_ := TypeTable.named_basic
  rcases compile_types_cases host basic few shaped.nodes with
    ⟨fields, c₁, types, named, errors₁⟩ | ⟨fields, crash⟩
  · rcases compile_global_cases host shaped.nodes named with
      ⟨c₂, globals, table, errors₂⟩ | ⟨⟨decl, outside, missing⟩, crash⟩
    · obtain ⟨c, funcs, reports⟩ := compile_funcs_reports host shaped.nodes (table ▸ named)
      have run : compile host ast .init = some c.link := by
        simp only [compile, types, globals, funcs, Option.bind_eq_bind, Option.bind_some]
      have errors := reports.errors
      rw [errors₂, errors₁] at errors
      have errors : c.link.errors_.length + (ast.nodes.flatMap Node.unreported).countP (!·.defined ast.type_names) =
        0 + (ast.nodes.flatMap Node.declarations).countP (!·.defined ast.type_names) := errors
      rw [run, fields]
      constructor
      · rintro ⟨c', same, enough⟩
        obtain rfl := Option.some.inj same
        omega
      · rintro ⟨⟨-, inner⟩, outside⟩
        exact ⟨c.link, rfl, by omega⟩
    · have stop : compile host ast .init = none := by
        simp only [compile, types, crash, Option.bind_eq_bind, Option.bind_some, Option.bind_none]
      rw [stop]
      constructor
      · rintro ⟨c, run, -⟩
        cases run
      · rintro ⟨-, declared⟩
        have found := List.countP_eq_zero.mp declared decl outside
        rw [Bool.not_eq_true, Bool.not_eq_false', ← Bool.not_eq_false] at found
        exact absurd missing found
  · have stop : compile host ast .init = none := by
      simp only [compile, crash, Option.bind_eq_bind, Option.bind_none]
    rw [stop]
    constructor
    · rintro ⟨c, run, -⟩
      cases run
    · rintro ⟨⟨none, -⟩, -⟩
      exact absurd none fields

theorem Root.compile_reports_local : ∃ ast,
    (Root.parse 20 (TokenStream.init (bytes "func main()\x7b\nvar x foo = 1\n\x7d\n"))).value = some ast ∧
    ast.undefined = 1 ∧ ∃ c, Compiler.compile .plain ast .init = some c ∧ 1 ≤ c.errors_.length := by
  have run : ((Root.parse 20 (TokenStream.init (bytes "func main()\x7b\nvar x foo = 1\n\x7d\n"))).value.any
      fun ast => ast.undefined == 1 && ast.declared) = true := by
    decide +kernel
  simp only [Option.any_eq_true, Bool.and_eq_true, beq_iff_eq] at run
  obtain ⟨ast, parsed, one, declared⟩ := run
  have compiled := (compile_reports_iff .plain parsed).mpr declared
  rw [one] at compiled
  exact ⟨ast, parsed, one, compiled⟩

/-- A global of an unknown type and a struct type with a field of its own type stop the compiler. -/
theorem Root.unknown_types_crash :
    (∃ ast, (Root.parse 20 (TokenStream.init (bytes "var x foo = 1\n"))).value = some ast ∧
      Compiler.compile .plain ast .init = none) ∧
    ∃ ast, (Root.parse 20 (TokenStream.init (bytes "type struct \x7b\na T\n\x7d T\n"))).value = some ast ∧
      Compiler.compile .plain ast .init = none := by
  have crash : ∀ src, ((Root.parse 20 (TokenStream.init src)).value.any fun ast =>
      (Compiler.compile .plain ast .init).isNone) = true →
      ∃ ast, (Root.parse 20 (TokenStream.init src)).value = some ast ∧ Compiler.compile .plain ast .init = none := by
    intro src run
    simpa only [Option.any_eq_true, Option.isNone_iff_eq_none] using run
  exact ⟨crash _ (by decide +kernel), crash _ (by decide +kernel)⟩

end Mygo
