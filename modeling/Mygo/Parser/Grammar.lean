import Mygo.Parser.Defs

namespace Mygo

namespace Grammar

inductive Phrase
  | token (e : Expr)
  | call (e : Expr)
  | atom (e : Expr)
  | product (e : Expr)
  | factors (ops : List TokenType) (es : List Expr)
  | sum (e : Expr)
  | summands (ops : List TokenType) (es : List Expr)
  | comparison (e : Expr)
  | args (es : List Expr)
  | lines
  | fields (fields_ : List (Bytes × Bytes))
  | struct (stct : Struct)
  | type (t : VarType)
  | declaration (decl : Declaration)
  | assignment (asgm : Assignment)
  | exprs (es : List Expr)
  | ret (ret : Return)
  | typedef (tdef : Typedef)
  | init_stmt (decl : Option Declaration)
  | finish_cond (cond : Option Expr)
  | step_stmt (asgm : Option Assignment)
  | params (args : List (Bytes × Bytes))
  | returns (returns : List Bytes)
  | braced (block : Block)
  | branches (branches_ : List (Expr × Block)) (tail_else_ : Option Block)
  | stmt (node : Node)
  | stmts (nodes : List Node)
  | block (block : Block)
  | root (ast : Root)

/-- The phrase stands at the start of the first sequence and leaves the second.  `name` is asked of
the token after `Func`. -/
inductive Derives (name : Value → Prop) : Phrase → List Value → List Value → Prop
  | token {v : Value} : Expr.is_atomic v.type_ = true → Derives name (.token (.TOKEN l r v)) (v :: ts) ts
  | call {o c : Value} : Derives name (.token f) ts (o :: ts₁) → o.type_ = .LParent →
    Derives name (.args es) ts₁ (c :: ts') → c.type_ = .RParent →
    Derives name (.call (.FUNCALL l r (f :: es))) ts ts'
  | atom_call : Derives name (.call e) ts ts' → Derives name (.atom (e.setLoc l r)) ts ts'
  | atom_minus {m : Value} : m.type_ = .Sub → Derives name (.token e) ts ts' →
    Derives name (.atom (.OPS l r [.Sub] [e])) (m :: ts) ts'
  | atom_token : Derives name (.token e) ts ts' → Derives name (.atom (e.setLoc l r)) ts ts'
  | product : Derives name (.atom e) ts ts' → Derives name (.product (e.setLoc l r)) ts ts'
  | star : Derives name (.atom e) ts ts₁ → Derives name (.factors ops es) ts₁ ts' → ops ≠ [] →
    Derives name (.product (.OPS l r ops (e :: es))) ts ts'
  | factors_nil : Derives name (.factors [] []) ts ts
  | factors_cons {o : Value} : Expr.is_star o.type_ = true → Derives name (.atom e) ts ts₁ →
    Derives name (.factors ops es) ts₁ ts' → Derives name (.factors (o.type_ :: ops) (e :: es)) (o :: ts) ts'
  | sum : Derives name (.product e) ts ts' → Derives name (.sum (e.setLoc l r)) ts ts'
  | plus : Derives name (.product e) ts ts₁ → Derives name (.summands ops es) ts₁ ts' → ops ≠ [] →
    Derives name (.sum (.OPS l r ops (e :: es))) ts ts'
  | summands_nil : Derives name (.summands [] []) ts ts
  | summands_cons {o : Value} : Expr.is_plus o.type_ = true → Derives name (.product e) ts ts₁ →
    Derives name (.summands ops es) ts₁ ts' → Derives name (.summands (o.type_ :: ops) (e :: es)) (o :: ts) ts'
  | comparison : Derives name (.sum e) ts ts' → Derives name (.comparison (e.setLoc l r)) ts ts'
  | greater {o : Value} : Derives name (.sum a) ts (o :: ts₁) → Expr.is_greater o.type_ = true →
    Derives name (.sum b) ts₁ ts' → Derives name (.comparison (.OPS l r [o.type_] [a, b])) ts ts'
  | args_nil : Derives name (.args []) ts ts
  | args_last : Derives name (.comparison e) ts ts' → Derives name (.args [e]) ts ts'
  | args_comma {c : Value} : Derives name (.comparison e) ts (c :: ts₁) → c.type_ = .Comma →
    Derives name (.args es) ts₁ ts' → Derives name (.args (e :: es)) ts ts'
  | lines_nil : Derives name .lines ts ts
  | lines_cons {v : Value} : v.type_ = .Enl → Derives name .lines ts ts' → Derives name .lines (v :: ts) ts'
  | fields_nil : Derives name (.fields []) ts ts
  | fields_cons {n t e : Value} : n.type_ = .Symbol → t.type_ = .Symbol → e.type_ = .Enl →
    Derives name .lines ts ts₁ → Derives name (.fields fields_) ts₁ ts' →
    Derives name (.fields ((n.str_data_, t.str_data_) :: fields_)) (n :: t :: e :: ts) ts'
  | struct {k o c : Value} : k.type_ = .Struct → o.type_ = .LBrace → Derives name .lines ts ts₁ →
    Derives name (.fields fields_) ts₁ (c :: ts') → c.type_ = .RBrace →
    Derives name (.struct ⟨l, r, fields_⟩) (k :: o :: ts) ts'
  | type_struct : Derives name (.struct stct) ts ts' → Derives name (.type ⟨l, r, true, some stct, []⟩) ts ts'
  | type_name {n : Value} : n.type_ = .Symbol →
    Derives name (.type ⟨l, r, false, none, n.str_data_⟩) (n :: ts) ts
  | declaration {k n a : Value} : k.type_ = .Var → n.type_ = .Symbol → Derives name (.type t) ts (a :: ts₁) →
    a.type_ = .Assign → Derives name (.comparison e) ts₁ ts' →
    Derives name (.declaration ⟨l, r, n.str_data_, some t, e⟩) (k :: n :: ts) ts'
  | untyped {k n a : Value} : k.type_ = .Var → n.type_ = .Symbol → a.type_ = .Assign →
    Derives name (.comparison e) ts ts' →
    Derives name (.declaration ⟨l, r, n.str_data_, some ⟨.init, .init, false, none, []⟩, e⟩) (k :: n :: a :: ts) ts'
  | assignment {n a : Value} : n.type_ = .Symbol → a.type_ = .Assign → Derives name (.comparison e) ts ts' →
    Derives name (.assignment ⟨l, r, n.str_data_, e⟩) (n :: a :: ts) ts'
  | exprs_nil : Derives name (.exprs []) ts ts
  | exprs_cons : Derives name (.comparison e) ts ts₁ → Derives name (.exprs es) ts₁ ts' →
    Derives name (.exprs (e :: es)) ts ts'
  | ret {k : Value} : k.type_ = .Return → Derives name (.exprs es) ts ts' →
    Derives name (.ret ⟨l, r, es⟩) (k :: ts) ts'
  | typedef {k n : Value} : k.type_ = .Typedef → Derives name (.type t) ts (n :: ts') → n.type_ = .Symbol →
    Derives name (.typedef ⟨l, r, n.str_data_, t⟩) (k :: ts) ts'
  | no_init : Derives name (.init_stmt none) ts ts
  | init_stmt : Derives name (.declaration decl) ts ts' → Derives name (.init_stmt (some decl)) ts ts'
  | no_cond : Derives name (.finish_cond none) ts ts
  | finish_cond : Derives name (.comparison e) ts ts' → Derives name (.finish_cond (some e)) ts ts'
  | no_step : Derives name (.step_stmt none) ts ts
  | step_stmt : Derives name (.assignment asgm) ts ts' → Derives name (.step_stmt (some asgm)) ts ts'
  | params_nil : Derives name (.params []) ts ts
  | params_cons {n t : Value} : n.type_ = .Symbol → t.type_ = .Symbol → Derives name (.params args) ts ts' →
    Derives name (.params ((n.str_data_, t.str_data_) :: args)) (n :: t :: ts) ts'
  | params_comma {n t c : Value} : n.type_ = .Symbol → t.type_ = .Symbol → c.type_ = .Comma →
    Derives name (.params args) ts ts' →
    Derives name (.params ((n.str_data_, t.str_data_) :: args)) (n :: t :: c :: ts) ts'
  | returns_nil : Derives name (.returns []) ts ts
  | returns_cons {t : Value} : t.type_ = .Symbol → Derives name (.returns returns) ts ts' →
    Derives name (.returns (t.str_data_ :: returns)) (t :: ts) ts'
  | braced {o c : Value} : o.type_ = .LBrace → Derives name .lines ts ts₁ →
    Derives name (.block block) ts₁ (c :: ts') → c.type_ = .RBrace → Derives name (.braced block) (o :: ts) ts'
  | branch : Derives name (.comparison condition) ts ts₁ → Derives name (.braced block) ts₁ ts' →
    Derives name (.branches [(condition, block)] none) ts ts'
  | branch_else {k : Value} : Derives name (.comparison condition) ts ts₁ →
    Derives name (.braced block) ts₁ (k :: ts₂) → k.type_ = .Else → Derives name (.braced tail) ts₂ ts' →
    Derives name (.branches [(condition, block)] (some tail)) ts ts'
  | branch_if {k i : Value} : Derives name (.comparison condition) ts ts₁ →
    Derives name (.braced block) ts₁ (k :: i :: ts₂) → k.type_ = .Else → i.type_ = .If →
    Derives name (.branches branches_ tail_else_) ts₂ ts' →
    Derives name (.branches ((condition, block) :: branches_) tail_else_) ts ts'
  | stmt_declaration : Derives name (.declaration decl) ts ts' → Derives name (.stmt (.Declaration decl)) ts ts'
  | stmt_assignment : Derives name (.assignment asgm) ts ts' → Derives name (.stmt (.Assignment asgm)) ts ts'
  | stmt_expr : Derives name (.comparison e) ts ts' → Derives name (.stmt (.Expr e)) ts ts'
  | stmt_if {k : Value} : k.type_ = .If → Derives name (.branches branches_ tail_else_) ts ts' →
    Derives name (.stmt (.If l r branches_ tail_else_)) (k :: ts) ts'
  | stmt_function {k n o c b z : Value} : k.type_ = .Func → name n → o.type_ = .LParent →
    Derives name (.params args) ts (c :: ts₁) → c.type_ = .RParent →
    Derives name (.returns returns) ts₁ (b :: ts₂) → b.type_ = .LBrace → Derives name .lines ts₂ ts₃ →
    Derives name (.block block) ts₃ (z :: ts') → z.type_ = .RBrace →
    Derives name (.stmt (.Function l r n.str_data_ args returns block)) (k :: n :: o :: ts) ts'
  | stmt_return : Derives name (.ret ret) ts ts' → Derives name (.stmt (.Return ret)) ts ts'
  | stmt_for {k a b : Value} : k.type_ = .For → Derives name (.init_stmt decl) ts (a :: ts₁) →
    a.type_ = .Semicolon → Derives name (.finish_cond condition) ts₁ (b :: ts₂) → b.type_ = .Semicolon →
    Derives name (.step_stmt asgm) ts₂ ts₃ → Derives name (.braced block) ts₃ ts' →
    Derives name (.stmt (.For l r decl condition asgm block)) (k :: ts) ts'
  | stmt_typedef : Derives name (.typedef tdef) ts ts' → Derives name (.stmt (.Typedef tdef)) ts ts'
  | stmts_nil : Derives name .lines ts ts' → Derives name (.stmts []) ts ts'
  | stmts_cons : Derives name .lines ts ts₁ → Derives name (.stmt node) ts₁ ts₂ →
    Derives name (.stmts nodes) ts₂ ts' → Derives name (.stmts (node :: nodes)) ts ts'
  | block : Derives name (.stmts nodes) ts ts' → Derives name (.block (.mk l r nodes)) ts ts'
  | root {e : Value} : Derives name (.block block) ts ts₁ → Derives name .lines ts₁ (e :: ts') →
    e.type_ = .Enf → Derives name (.root ⟨l, r, block⟩) ts ts'

/-- A program of the language: a function is named by a symbol. -/
def Accepts (ast : Root) (ts : List Value) : Prop := Derives (·.type_ = .Symbol) (.root ast) ts []

/-- The token after every `Func` is a name. -/
def Followed (name : Value → Prop) : List Value → Prop
  | [] => True
  | v :: ts => (v.type_ = .Func → ∃ n rest, ts = n :: rest ∧ name n) ∧ Followed name ts

/-- The sequence ends with its only `Enf`. -/
def Ended : List Value → Prop
  | [] => False
  | v :: ts => if v.type_ = .Enf then ts = [] else Ended ts

variable {phrase : Phrase} {ts ts' : List Value}

theorem Followed.cons {name : Value → Prop} {v : Value} {kind : TokenType → Bool} (h : Followed name ts)
    (is : kind v.type_ = true) (other : kind .Func = false) : Followed name (v :: ts) := by
  refine ⟨fun func => ?_, h⟩
  rw [func, other] at is
  cases is

theorem Derives.followed (h : Derives (·.type_ = .Symbol) phrase ts ts')
    (rest : Followed (·.type_ = .Symbol) ts') : Followed (·.type_ = .Symbol) ts := by
  induction h with
  | token atomic => exact rest.cons atomic rfl
  | factors_cons op _ _ ih ih' => exact (ih (ih' rest)).cons op rfl
  | summands_cons op _ _ ih ih' => exact (ih (ih' rest)).cons op rfl
  | greater _ op _ ih ih' => exact ih ((ih' rest).cons op rfl)
  | _ => simp_all [Followed]

end Grammar

end Mygo
