import Mygo.Parser.Grammar
import Mygo.Parser.Limits
import Mygo.Parser.Program

namespace Mygo

open Mygo.Expr (Shape)

def Counted.one_value : Counted → Nat → Prop
  | .values, n => n ≤ 1
  | _, _ => True

instance : (k : Counted) → (n : Nat) → Decidable (k.one_value n)
  | .values, n => inferInstanceAs (Decidable (n ≤ 1))
  | .args, _ | .returns, _ | .fields, _ | .branches, _ | .stmts, _ => .isTrue trivial

abbrev Counted.single (k : Counted) (n : Nat) : Prop := bounded k n ∧ k.one_value n

@[simp] theorem Expr.print_setLoc (l r : Loc) (e : Expr) : (e.setLoc l r).print = e.print := by
  cases e <;> rfl

namespace Expr

theorem Shape.setLoc_atom {e : Expr} (h : Shape (.atom e)) (l r : Loc) : Shape (.atom (e.setLoc l r)) := by
  cases h with
  | token atomic => exact .token atomic
  | minus atomic => exact .minus atomic
  | call atomic args => exact .call atomic args

theorem Shape.setLoc_product {e : Expr} (h : Shape (.product e)) (l r : Loc) :
    Shape (.product (e.setLoc l r)) := by
  cases h with
  | product atom => exact .product (atom.setLoc_atom l r)
  | star first rest some_ => exact .star first rest some_

theorem Shape.setLoc_sum {e : Expr} (h : Shape (.sum e)) (l r : Loc) : Shape (.sum (e.setLoc l r)) := by
  cases h with
  | sum product => exact .sum (product.setLoc_product l r)
  | plus first rest some_ => exact .plus first rest some_

end Expr

namespace Grammar

/-- What is derived has the shape of the printed trees, and can be printed when it is within the limits. -/
def Phrase.Fits : Phrase → Prop
  | .token e => ∃ l r v, e = .TOKEN l r v ∧ Expr.is_atomic v.type_ = true
  | .call e => Shape (.atom e)
  | .atom e => Shape (.atom e)
  | .product e => Shape (.product e)
  | .factors ops es => Shape (.factors ops es)
  | .sum e => Shape (.sum e)
  | .summands ops es => Shape (.summands ops es)
  | .comparison e => Shape (.comparison e)
  | .args es => Shape (.args es)
  | .lines | .fields _ | .struct _ | .params _ | .returns _ => True
  | .type t => (t.Within Counted.single → t.Printable) ∧ (t.is_struct_ = true ∨ t.name_ ≠ [])
  | .declaration decl => decl.Within Counted.single → decl.Printable
  | .assignment asgm => asgm.Printable
  | .exprs es => ∀ e ∈ es, Shape (.comparison e)
  | .ret r => r.ret_exprs.length ≤ 1 → r.Printable
  | .typedef tdef => tdef.old_type_.Within Counted.single → tdef.Printable
  | .init_stmt decl => ∀ d ∈ decl, d.Within Counted.single → d.Printable
  | .finish_cond cond => ∀ e ∈ cond, Shape (.comparison e)
  | .step_stmt asgm => ∀ a ∈ asgm, a.Printable
  | .braced b | .block b => b.Within Counted.single → Node.PrintableBlock b
  | .branches bs tail => bs ≠ [] ∧
    (Node.WithinBranches Counted.single bs → Node.PrintableBranches bs) ∧
      (Node.WithinTail Counted.single tail → Node.PrintableTail tail)
  | .stmt node => node.Within Counted.single → node.Printable
  | .stmts nodes => Node.WithinAll Counted.single nodes → Node.PrintableNodes nodes
  | .root ast => ast.Within Counted.single → ast.Printable

variable {name : Value → Prop} {phrase : Phrase} {ts ts' : List Value}

def Named (v : Value) : Prop := v.type_ = .Symbol → v.str_data_ ≠ []

theorem Derives.fits (h : Derives name phrase ts ts') (named : ∀ v ∈ ts, Named v) :
    phrase.Fits ∧ ∀ v ∈ ts', Named v := by
  induction h with
  | token atomic => exact ⟨⟨_, _, _, rfl, atomic⟩, (List.forall_mem_cons.mp named).2⟩
  | call callee opened args closed ih ih' =>
    obtain ⟨⟨l, r, v, rfl, atomic⟩, named₁⟩ := ih named
    obtain ⟨args, named₂⟩ := ih' (List.forall_mem_cons.mp named₁).2
    exact ⟨.call atomic args, (List.forall_mem_cons.mp named₂).2⟩
  | atom_call call ih =>
    obtain ⟨fits, named₁⟩ := ih named
    exact ⟨fits.setLoc_atom _ _, named₁⟩
  | product atom ih =>
    obtain ⟨fits, named₁⟩ := ih named
    exact ⟨.product (fits.setLoc_atom _ _), named₁⟩
  | atom_minus minus token ih =>
    obtain ⟨⟨l, r, v, rfl, atomic⟩, named₁⟩ := ih (List.forall_mem_cons.mp named).2
    exact ⟨.minus atomic, named₁⟩
  | atom_token token ih =>
    obtain ⟨⟨l, r, v, rfl, atomic⟩, named₁⟩ := ih named
    exact ⟨.token atomic, named₁⟩
  | sum product ih =>
    obtain ⟨fits, named₁⟩ := ih named
    exact ⟨.sum (fits.setLoc_product _ _), named₁⟩
  | comparison sum ih =>
    obtain ⟨fits, named₁⟩ := ih named
    exact ⟨.comparison (fits.setLoc_sum _ _), named₁⟩
  | star first rest some_ ih ih' =>
    obtain ⟨fits, named₁⟩ := ih named
    obtain ⟨fits', named₂⟩ := ih' named₁
    exact ⟨.star fits fits' some_, named₂⟩
  | plus first rest some_ ih ih' =>
    obtain ⟨fits, named₁⟩ := ih named
    obtain ⟨fits', named₂⟩ := ih' named₁
    exact ⟨.plus fits fits' some_, named₂⟩
  | factors_nil => exact ⟨.factors_nil, named⟩
  | summands_nil => exact ⟨.summands_nil, named⟩
  | args_nil => exact ⟨.args_nil, named⟩
  | factors_cons op first rest ih ih' =>
    obtain ⟨fits, named₁⟩ := ih (List.forall_mem_cons.mp named).2
    obtain ⟨fits', named₂⟩ := ih' named₁
    exact ⟨.factors_cons op fits fits', named₂⟩
  | summands_cons op first rest ih ih' =>
    obtain ⟨fits, named₁⟩ := ih (List.forall_mem_cons.mp named).2
    obtain ⟨fits', named₂⟩ := ih' named₁
    exact ⟨.summands_cons op fits fits', named₂⟩
  | greater first op second ih ih' =>
    obtain ⟨fits, named₁⟩ := ih named
    obtain ⟨fits', named₂⟩ := ih' (List.forall_mem_cons.mp named₁).2
    exact ⟨.greater op fits fits', named₂⟩
  | args_last e ih =>
    obtain ⟨fits, named₁⟩ := ih named
    exact ⟨.args_cons fits .args_nil, named₁⟩
  | args_comma e comma rest ih ih' =>
    obtain ⟨fits, named₁⟩ := ih named
    obtain ⟨fits', named₂⟩ := ih' (List.forall_mem_cons.mp named₁).2
    exact ⟨.args_cons fits fits', named₂⟩
  | type_struct stct ih =>
    obtain ⟨-, named₁⟩ := ih named
    exact ⟨⟨fun within => ⟨rfl, rfl, (within _ rfl).1⟩, .inl rfl⟩, named₁⟩
  | type_name symbol =>
    obtain ⟨first, others⟩ := List.forall_mem_cons.mp named
    exact ⟨⟨fun _ => rfl, .inr (first symbol)⟩, others⟩
  | declaration var symbol type assign value ih ih' =>
    obtain ⟨⟨fits, -⟩, named₁⟩ := ih (List.forall_mem_cons.mp (List.forall_mem_cons.mp named).2).2
    obtain ⟨fits', named₂⟩ := ih' (List.forall_mem_cons.mp named₁).2
    exact ⟨fun within => ⟨⟨_, rfl, fits (within _ rfl)⟩, fits'⟩, named₂⟩
  | untyped var symbol assign value ih =>
    obtain ⟨fits, named₁⟩ := ih (by simp_all)
    exact ⟨fun _ => ⟨⟨_, rfl, rfl⟩, fits⟩, named₁⟩
  | assignment symbol assign value ih => exact ih (by simp_all)
  | ret keyword values ih =>
    obtain ⟨fits, named₁⟩ := ih (List.forall_mem_cons.mp named).2
    exact ⟨fun few => ⟨few, fits⟩, named₁⟩
  | typedef keyword type symbol ih =>
    obtain ⟨⟨fits, old⟩, named₁⟩ := ih (List.forall_mem_cons.mp named).2
    exact ⟨fun within => ⟨fits within, old⟩, (List.forall_mem_cons.mp named₁).2⟩
  | branch condition body ih ih' =>
    obtain ⟨fits, named₁⟩ := ih named
    obtain ⟨fits', named₂⟩ := ih' named₁
    exact ⟨⟨List.cons_ne_nil _ _, fun within => ⟨fits, fits' within.1, trivial⟩, fun _ => trivial⟩, named₂⟩
  | branch_else condition body keyword tail ih ih' ih₂ =>
    obtain ⟨fits, named₁⟩ := ih named
    obtain ⟨fits', named₂⟩ := ih' named₁
    obtain ⟨last, named₃⟩ := ih₂ (List.forall_mem_cons.mp named₂).2
    exact ⟨⟨List.cons_ne_nil _ _, fun within => ⟨fits, fits' within.1, trivial⟩, last⟩, named₃⟩
  | branch_if condition body keyword again rest ih ih' ih₂ =>
    obtain ⟨fits, named₁⟩ := ih named
    obtain ⟨fits', named₂⟩ := ih' named₁
    obtain ⟨⟨-, others, last⟩, named₃⟩ := ih₂ (by simp_all)
    exact ⟨⟨List.cons_ne_nil _ _, fun within => ⟨fits, fits' within.1, others within.2⟩, last⟩, named₃⟩
  | stmt_if keyword branches ih =>
    obtain ⟨⟨some_, fits, last⟩, named₁⟩ := ih (List.forall_mem_cons.mp named).2
    exact ⟨fun ⟨few, within, within'⟩ => ⟨some_, Nat.le_of_lt_succ few.1, fits within, last within'⟩, named₁⟩
  | stmt_function keyword named_ opened params closed returns braced lines block last ih ih' ih₂ ih₃ =>
    obtain ⟨-, named₁⟩ := ih (List.forall_mem_cons.mp (List.forall_mem_cons.mp (List.forall_mem_cons.mp named).2).2).2
    obtain ⟨-, named₂⟩ := ih' (List.forall_mem_cons.mp named₁).2
    obtain ⟨-, named₃⟩ := ih₂ (List.forall_mem_cons.mp named₂).2
    obtain ⟨fits, named₄⟩ := ih₃ named₃
    refine ⟨fun ⟨few, few', within⟩ => ⟨Nat.le_of_lt_succ few.1, few'.1, fits within⟩, ?_⟩
    exact (List.forall_mem_cons.mp named₄).2
  | stmt_for keyword init first finish second step body ih ih' ih₂ ih₃ =>
    obtain ⟨fits, named₁⟩ := ih (List.forall_mem_cons.mp named).2
    obtain ⟨fits', named₂⟩ := ih' (List.forall_mem_cons.mp named₁).2
    obtain ⟨fits₂, named₃⟩ := ih₂ (List.forall_mem_cons.mp named₂).2
    obtain ⟨fits₃, named₄⟩ := ih₃ named₃
    exact ⟨fun ⟨within, within'⟩ => ⟨fun d there => fits d there (within d there), fits', fits₂, fits₃ within'⟩, named₄⟩
  | stmts_nil lines ih => exact ⟨fun _ => trivial, (ih named).2⟩
  | stmts_cons lines node nodes ih ih' ih₂ =>
    obtain ⟨-, named₁⟩ := ih named
    obtain ⟨fits, named₂⟩ := ih' named₁
    obtain ⟨fits', named₃⟩ := ih₂ named₂
    exact ⟨fun within => ⟨fits within.1, fits' within.2⟩, named₃⟩
  | block nodes ih =>
    obtain ⟨fits, named₁⟩ := ih named
    exact ⟨fun within => ⟨within.1.1, fits within.2⟩, named₁⟩
  | stmt_return _ ih => exact ⟨fun within => (ih named).1 within.2, (ih named).2⟩
  | stmt_declaration _ ih | stmt_typedef _ ih => exact ih named
  | stmt_assignment _ ih | stmt_expr _ ih => exact ⟨fun _ => (ih named).1, (ih named).2⟩
  | root block lines last ih ih' =>
    obtain ⟨fits, named₁⟩ := ih named
    exact ⟨fits, (List.forall_mem_cons.mp (ih' named₁).2).2⟩
  | exprs_nil => exact ⟨nofun, named⟩
  | _ => simp_all [Phrase.Fits]

structure Printing (name source printed : Value → Prop) : Prop where
  keyword : ∀ T ∈ Lexer.simple_tokens, printed (Print.token T)
  line : printed (Print.token .Enl)
  atomic : ∀ v, source v → Expr.is_atomic v.type_ = true → printed v.erase
  symbol : ∀ v, source v → v.type_ = .Symbol → printed (Print.symbol v.str_data_)
  name : ∀ v, source v → name v → printed (Print.symbol v.str_data_)

def Phrase.Prints (P : Value → Prop) : Phrase → Prop
  | .token e | .call e | .atom e | .product e | .sum e | .comparison e => ∀ v ∈ e.print, P v
  | .factors ops es | .summands ops es =>
    (∀ v ∈ Expr.printRest ops es, P v) ∧ ∀ op ∈ ops, P (Print.token op)
  | .args es => ∀ v ∈ Expr.printArgs es, P v
  | .lines => True
  | .fields fields_ => ∀ v ∈ Struct.printFields fields_, P v
  | .struct stct => ∀ v ∈ stct.print, P v
  | .type t => ∀ v ∈ t.print, P v
  | .declaration decl => ∀ v ∈ decl.print, P v
  | .assignment asgm => ∀ v ∈ asgm.print, P v
  | .exprs es => ∀ v ∈ es.flatMap Expr.print, P v
  | .ret r => ∀ v ∈ r.print, P v
  | .typedef tdef => ∀ v ∈ tdef.print, P v
  | .init_stmt decl => ∀ v ∈ printOption Declaration.print decl, P v
  | .finish_cond cond => ∀ v ∈ printOption Expr.print cond, P v
  | .step_stmt asgm => ∀ v ∈ printOption Assignment.print asgm, P v
  | .params ps => ∀ v ∈ Function.printArgs ps, P v
  | .returns rs => ∀ v ∈ rs.map Print.symbol, P v
  | .braced b | .block b => ∀ v ∈ Node.printBlock b, P v
  | .branches bs tail => ∀ v ∈ Node.printBranches bs ++ Node.printTail tail, P v
  | .stmt node => ∀ v ∈ node.print, P v
  | .stmts nodes => ∀ v ∈ Node.printNodes nodes, P v
  | .root ast => ∀ v ∈ Node.printBlock ast.block_, P v

variable {source printed : Value → Prop}

theorem Printing.star (p : Printing name source printed) {op : TokenType} (h : Expr.is_star op = true) :
    printed (Print.token op) :=
  p.keyword op (by cases op <;> first | decide | cases h)

theorem Printing.plus (p : Printing name source printed) {op : TokenType} (h : Expr.is_plus op = true) :
    printed (Print.token op) :=
  p.keyword op (by cases op <;> first | decide | cases h)

theorem Printing.greater (p : Printing name source printed) {op : TokenType} (h : Expr.is_greater op = true) :
    printed (Print.token op) :=
  p.keyword op (by cases op <;> first | decide | cases h)

theorem prints_operators {ops : List TokenType} {e : Expr} {es : List Expr} (first : ∀ v ∈ e.print, printed v)
    (rest : ∀ v ∈ Expr.printRest ops es, printed v) (all : ∀ op ∈ ops, printed (Print.token op)) :
    ∀ v ∈ Expr.printOps ops (e :: es), printed v := by
  rw [Expr.printOps]
  split
  · exact List.forall_mem_append.mpr ⟨first, rest⟩
  · exact List.forall_mem_append.mpr ⟨List.forall_mem_map.mpr all, first⟩

theorem prints_struct (p : Printing name source printed) {l r : Loc} {fields : List (Bytes × Bytes)}
    (h : ∀ v ∈ Struct.printFields fields, printed v) : ∀ v ∈ (⟨l, r, fields⟩ : Struct).print, printed v := by
  simp only [Struct.print, List.forall_mem_cons, List.forall_mem_append]
  exact ⟨p.keyword .Struct (by decide), p.keyword .LBrace (by decide), p.line, h, p.keyword .RBrace (by decide),
    List.forall_mem_nil _⟩

theorem prints_block (p : Printing name source printed) {l r : Loc} {nodes : List Node}
    (h : ∀ v ∈ Node.printNodes nodes, printed v) : ∀ v ∈ Node.printBlock (.mk l r nodes), printed v := by
  simp only [Node.printBlock, List.forall_mem_cons, List.forall_mem_append]
  exact ⟨p.keyword .LBrace (by decide), p.line, h, p.keyword .RBrace (by decide), List.forall_mem_nil _⟩

theorem prints_branches (p : Printing name source printed) {condition : Expr} {block : Block}
    {others : List (Expr × Block)} {tail : Option Block} (cond : ∀ v ∈ condition.print, printed v)
    (body : ∀ v ∈ Node.printBlock block, printed v)
    (rest : ∀ v ∈ Node.printBranches others ++ Node.printTail tail, printed v) :
    ∀ v ∈ Node.printBranches ((condition, block) :: others) ++ Node.printTail tail, printed v := by
  simp only [Node.printBranches, List.cons_append, List.append_assoc, List.forall_mem_cons, List.forall_mem_append]
  exact ⟨p.keyword .Else (by decide), p.keyword .If (by decide), cond, body, List.forall_mem_append.mp rest⟩

theorem prints_params (p : Printing name source printed) {params : List (Bytes × Bytes)} {param : Bytes × Bytes}
    (first : printed (Print.symbol param.1)) (second : printed (Print.symbol param.2))
    (rest : ∀ v ∈ Function.printArgs params, printed v) : ∀ v ∈ Function.printArgs (param :: params), printed v := by
  simp only [Function.printArgs, List.forall_mem_cons]
  refine ⟨first, second, ?_⟩
  split
  · exact List.forall_mem_nil _
  · exact List.forall_mem_cons.mpr ⟨p.keyword .Comma (by decide), rest⟩

theorem Derives.prints (p : Printing name source printed) (h : Derives name phrase ts ts')
    (given : ∀ v ∈ ts, source v) : phrase.Prints printed ∧ ∀ v ∈ ts', source v := by
  induction h with
  | token kind =>
    obtain ⟨first, others⟩ := List.forall_mem_cons.mp given
    exact ⟨List.forall_mem_singleton.mpr (p.atomic _ first kind), others⟩
  | @call f ts o ts₁ es c ts' l r callee opened args closed ih ih' =>
    obtain ⟨prints, given₁⟩ := ih given
    obtain ⟨prints', given₂⟩ := ih' (List.forall_mem_cons.mp given₁).2
    refine ⟨?_, (List.forall_mem_cons.mp given₂).2⟩
    simp only [Phrase.Prints, Expr.print, Expr.printCall, List.forall_mem_append, List.forall_mem_cons]
    exact ⟨prints, p.keyword .LParent (by decide), prints', p.keyword .RParent (by decide), List.forall_mem_nil _⟩
  | atom_call call ih | atom_token token ih | product atom ih | sum product ih | comparison sum ih =>
    obtain ⟨prints, given₁⟩ := ih given
    exact ⟨by simpa only [Phrase.Prints, Expr.print_setLoc] using prints, given₁⟩
  | atom_minus minus token ih =>
    obtain ⟨prints, given₁⟩ := ih (List.forall_mem_cons.mp given).2
    have spelt := p.keyword .Sub (by decide)
    have rest : ∀ v ∈ Expr.printRest [.Sub] [], printed v := by simp [Expr.printRest]
    exact ⟨prints_operators prints rest (List.forall_mem_singleton.mpr spelt), given₁⟩
  | star first rest some_ ih ih' | plus first rest some_ ih ih' =>
    obtain ⟨prints, given₁⟩ := ih given
    obtain ⟨⟨prints', ops⟩, given₂⟩ := ih' given₁
    exact ⟨prints_operators prints prints' ops, given₂⟩
  | factors_nil | summands_nil => exact ⟨⟨List.forall_mem_nil _, List.forall_mem_nil _⟩, given⟩
  | factors_cons op first rest ih ih' =>
    obtain ⟨prints, given₁⟩ := ih (List.forall_mem_cons.mp given).2
    obtain ⟨⟨prints', ops⟩, given₂⟩ := ih' given₁
    have spelt := p.star op
    refine ⟨⟨?_, List.forall_mem_cons.mpr ⟨spelt, ops⟩⟩, given₂⟩
    exact List.forall_mem_cons.mpr ⟨spelt, List.forall_mem_append.mpr ⟨prints, prints'⟩⟩
  | summands_cons op first rest ih ih' =>
    obtain ⟨prints, given₁⟩ := ih (List.forall_mem_cons.mp given).2
    obtain ⟨⟨prints', ops⟩, given₂⟩ := ih' given₁
    have spelt := p.plus op
    refine ⟨⟨?_, List.forall_mem_cons.mpr ⟨spelt, ops⟩⟩, given₂⟩
    exact List.forall_mem_cons.mpr ⟨spelt, List.forall_mem_append.mpr ⟨prints, prints'⟩⟩
  | @greater a ts ts₁ b ts' l r o first op second ih ih' =>
    obtain ⟨prints, given₁⟩ := ih given
    obtain ⟨prints', given₂⟩ := ih' (List.forall_mem_cons.mp given₁).2
    have spelt := p.greater op
    have rest : ∀ v ∈ Expr.printRest [o.type_] [b], printed v := by
      simp only [Expr.printRest, List.append_nil]
      exact List.forall_mem_cons.mpr ⟨spelt, prints'⟩
    exact ⟨prints_operators prints rest (List.forall_mem_singleton.mpr spelt), given₂⟩
  | args_nil | lines_nil | fields_nil | exprs_nil | no_init | no_cond | no_step | params_nil | returns_nil =>
    exact ⟨by simp [Phrase.Prints, Expr.printArgs, Struct.printFields, printOption, Function.printArgs], given⟩
  | args_last e ih =>
    obtain ⟨prints, given₁⟩ := ih given
    exact ⟨List.forall_mem_append.mpr ⟨prints, List.forall_mem_nil _⟩, given₁⟩
  | args_comma e comma rest ih ih' =>
    obtain ⟨prints, given₁⟩ := ih given
    obtain ⟨prints', given₂⟩ := ih' (List.forall_mem_cons.mp given₁).2
    refine ⟨?_, given₂⟩
    simp only [Phrase.Prints, Expr.printArgs]
    split
    · exact List.forall_mem_append.mpr ⟨prints, List.forall_mem_nil _⟩
    · exact List.forall_mem_append.mpr ⟨prints, List.forall_mem_cons.mpr ⟨p.keyword .Comma (by decide), prints'⟩⟩
  | lines_cons line rest ih => exact ⟨trivial, (ih (List.forall_mem_cons.mp given).2).2⟩
  | fields_cons field type end_ lines rest ih ih' =>
    obtain ⟨first, given₁⟩ := List.forall_mem_cons.mp given
    obtain ⟨second, given₂⟩ := List.forall_mem_cons.mp given₁
    obtain ⟨-, given₃⟩ := ih (List.forall_mem_cons.mp given₂).2
    obtain ⟨prints, given₄⟩ := ih' given₃
    refine ⟨?_, given₄⟩
    simp only [Phrase.Prints, Struct.printFields, List.forall_mem_cons]
    exact ⟨p.symbol _ first field, p.symbol _ second type, p.line, prints⟩
  | struct keyword opened lines rest closed ih ih' =>
    obtain ⟨-, given₁⟩ := ih (List.forall_mem_cons.mp (List.forall_mem_cons.mp given).2).2
    obtain ⟨prints, given₂⟩ := ih' given₁
    exact ⟨prints_struct p prints, (List.forall_mem_cons.mp given₂).2⟩
  | type_struct stct ih => exact ih given
  | @type_name l r ts n kind =>
    obtain ⟨first, others⟩ := List.forall_mem_cons.mp given
    refine ⟨?_, others⟩
    simp only [Phrase.Prints, VarType.print]
    split
    · exact List.forall_mem_nil _
    · exact List.forall_mem_singleton.mpr (p.symbol _ first kind)
  | declaration keyword kind type assign value ih ih' =>
    obtain ⟨first, given₁⟩ := List.forall_mem_cons.mp (List.forall_mem_cons.mp given).2
    obtain ⟨prints, given₂⟩ := ih given₁
    obtain ⟨prints', given₃⟩ := ih' (List.forall_mem_cons.mp given₂).2
    refine ⟨?_, given₃⟩
    simp only [Phrase.Prints, Declaration.print, Declaration.printType, List.forall_mem_cons, List.forall_mem_append]
    exact ⟨p.keyword .Var (by decide), p.symbol _ first kind, prints, p.keyword .Assign (by decide), prints'⟩
  | untyped keyword kind assign value ih =>
    obtain ⟨first, given₁⟩ := List.forall_mem_cons.mp (List.forall_mem_cons.mp given).2
    obtain ⟨prints, given₂⟩ := ih (List.forall_mem_cons.mp given₁).2
    refine ⟨?_, given₂⟩
    simp only [Phrase.Prints, Declaration.print, Declaration.printType, VarType.print, if_true, List.nil_append,
      List.forall_mem_cons]
    exact ⟨p.keyword .Var (by decide), p.symbol _ first kind, p.keyword .Assign (by decide), prints⟩
  | assignment kind assign value ih =>
    obtain ⟨first, given₁⟩ := List.forall_mem_cons.mp given
    obtain ⟨prints, given₂⟩ := ih (List.forall_mem_cons.mp given₁).2
    refine ⟨?_, given₂⟩
    simp only [Phrase.Prints, Assignment.print, List.forall_mem_cons]
    exact ⟨p.symbol _ first kind, p.keyword .Assign (by decide), prints⟩
  | exprs_cons e es ih ih' =>
    obtain ⟨prints, given₁⟩ := ih given
    obtain ⟨prints', given₂⟩ := ih' given₁
    exact ⟨List.forall_mem_append.mpr ⟨prints, prints'⟩, given₂⟩
  | ret keyword values ih =>
    obtain ⟨prints, given₁⟩ := ih (List.forall_mem_cons.mp given).2
    exact ⟨List.forall_mem_cons.mpr ⟨p.keyword .Return (by decide), prints⟩, given₁⟩
  | typedef keyword type kind ih =>
    obtain ⟨prints, given₁⟩ := ih (List.forall_mem_cons.mp given).2
    obtain ⟨last, given₂⟩ := List.forall_mem_cons.mp given₁
    refine ⟨?_, given₂⟩
    simp only [Phrase.Prints, Typedef.print, List.forall_mem_cons, List.forall_mem_append]
    exact ⟨p.keyword .Typedef (by decide), prints, p.symbol _ last kind, List.forall_mem_nil _⟩
  | params_cons kind kind' rest ih =>
    obtain ⟨first, given₁⟩ := List.forall_mem_cons.mp given
    obtain ⟨second, given₂⟩ := List.forall_mem_cons.mp given₁
    obtain ⟨prints, given₃⟩ := ih given₂
    exact ⟨prints_params p (p.symbol _ first kind) (p.symbol _ second kind') prints, given₃⟩
  | params_comma kind kind' comma rest ih =>
    obtain ⟨first, given₁⟩ := List.forall_mem_cons.mp given
    obtain ⟨second, given₂⟩ := List.forall_mem_cons.mp given₁
    obtain ⟨prints, given₃⟩ := ih (List.forall_mem_cons.mp given₂).2
    exact ⟨prints_params p (p.symbol _ first kind) (p.symbol _ second kind') prints, given₃⟩
  | returns_cons kind rest ih =>
    obtain ⟨first, others⟩ := List.forall_mem_cons.mp given
    obtain ⟨prints, given₁⟩ := ih others
    exact ⟨List.forall_mem_cons.mpr ⟨p.symbol _ first kind, prints⟩, given₁⟩
  | braced opened lines body closed ih ih' =>
    obtain ⟨-, given₁⟩ := ih (List.forall_mem_cons.mp given).2
    obtain ⟨prints, given₂⟩ := ih' given₁
    exact ⟨prints, (List.forall_mem_cons.mp given₂).2⟩
  | branch condition body ih ih' =>
    obtain ⟨prints, given₁⟩ := ih given
    obtain ⟨prints', given₂⟩ := ih' given₁
    have none : ∀ v ∈ Node.printBranches [] ++ Node.printTail none, printed v := List.forall_mem_nil _
    exact ⟨prints_branches p prints prints' none, given₂⟩
  | branch_else condition body keyword last ih ih' ih₂ =>
    obtain ⟨prints, given₁⟩ := ih given
    obtain ⟨prints', given₂⟩ := ih' given₁
    obtain ⟨prints₂, given₃⟩ := ih₂ (List.forall_mem_cons.mp given₂).2
    refine ⟨prints_branches p prints prints' ?_, given₃⟩
    exact List.forall_mem_cons.mpr ⟨p.keyword .Else (by decide), prints₂⟩
  | branch_if condition body keyword again rest ih ih' ih₂ =>
    obtain ⟨prints, given₁⟩ := ih given
    obtain ⟨prints', given₂⟩ := ih' given₁
    obtain ⟨prints₂, given₃⟩ := ih₂ (List.forall_mem_cons.mp (List.forall_mem_cons.mp given₂).2).2
    exact ⟨prints_branches p prints prints' prints₂, given₃⟩
  | stmt_if keyword rest ih =>
    obtain ⟨prints, given₁⟩ := ih (List.forall_mem_cons.mp given).2
    refine ⟨fun v mem => ?_, given₁⟩
    simp only [Node.print] at mem
    exact prints v (List.mem_of_mem_drop mem)
  | stmt_function keyword named opened params closed results braced lines body last ih ih' ih₂ ih₃ =>
    obtain ⟨first, given₁⟩ := List.forall_mem_cons.mp (List.forall_mem_cons.mp given).2
    obtain ⟨prints, given₂⟩ := ih (List.forall_mem_cons.mp given₁).2
    obtain ⟨prints', given₃⟩ := ih' (List.forall_mem_cons.mp given₂).2
    obtain ⟨-, given₄⟩ := ih₂ (List.forall_mem_cons.mp given₃).2
    obtain ⟨prints₂, given₅⟩ := ih₃ given₄
    refine ⟨?_, (List.forall_mem_cons.mp given₅).2⟩
    simp only [Phrase.Prints, Node.print, List.forall_mem_cons, List.forall_mem_append]
    exact ⟨p.keyword .Func (by decide), p.name _ first named, p.keyword .LParent (by decide), prints,
      p.keyword .RParent (by decide), prints', prints₂⟩
  | stmt_for keyword init first finish second step body ih ih' ih₂ ih₃ =>
    obtain ⟨prints, given₁⟩ := ih (List.forall_mem_cons.mp given).2
    obtain ⟨prints', given₂⟩ := ih' (List.forall_mem_cons.mp given₁).2
    obtain ⟨prints₂, given₃⟩ := ih₂ (List.forall_mem_cons.mp given₂).2
    obtain ⟨prints₃, given₄⟩ := ih₃ given₃
    refine ⟨?_, given₄⟩
    have semicolon : printed (Print.token .Semicolon) := p.keyword .Semicolon (by decide)
    simp only [Phrase.Prints, Node.print, List.forall_mem_cons, List.forall_mem_append]
    exact ⟨p.keyword .For (by decide), prints, semicolon, prints', semicolon, prints₂, prints₃⟩
  | stmts_nil lines ih => exact ⟨List.forall_mem_nil _, (ih given).2⟩
  | stmts_cons lines node nodes ih ih' ih₂ =>
    obtain ⟨-, given₁⟩ := ih given
    obtain ⟨prints, given₂⟩ := ih' given₁
    obtain ⟨prints', given₃⟩ := ih₂ given₂
    exact ⟨List.forall_mem_append.mpr ⟨prints, List.forall_mem_cons.mpr ⟨p.line, prints'⟩⟩, given₃⟩
  | block nodes ih =>
    obtain ⟨prints, given₁⟩ := ih given
    exact ⟨prints_block p prints, given₁⟩
  | root block lines last ih ih' =>
    obtain ⟨prints, given₁⟩ := ih given
    exact ⟨prints, (List.forall_mem_cons.mp (ih' given₁).2).2⟩
  | init_stmt _ ih | finish_cond _ ih | step_stmt _ ih => exact ih given
  | stmt_declaration _ ih | stmt_assignment _ ih | stmt_expr _ ih | stmt_return _ ih | stmt_typedef _ ih =>
    exact ih given

end Grammar

end Mygo
