import Mygo.Compiler.Simulation
import Mygo.Parser.Defs

namespace Mygo

namespace Store

def Slip (e : Fault) : Prop := e = .stack ∨ e = .divide

theorem slip_get {k : Int} {s : Store} {e : Fault} (h : s.get k = .error e) : Slip e := by
  unfold get at h
  split at h
  · cases h
  · cases h
    exact .inl rfl

theorem slip_set {k : Int} {v : BitVec 32} {s : Store} {e : Fault} (h : s.set k v = .error e) :
    Slip e := by
  unfold set at h
  split at h
  · cases h
  · cases h
    exact .inl rfl

theorem slip_bind {α β : Type} {x : Except Fault α} {f : α → Except Fault β} {e : Fault}
    (h : x >>= f = .error e) (hx : ∀ e, x = .error e → Slip e)
    (hf : ∀ a, x = .ok a → ∀ e, f a = .error e → Slip e) : Slip e := by
  cases x with
  | error e' =>
    cases h
    exact hx e rfl
  | ok a => exact hf a rfl e h

theorem slip_print {k : Int} {s : Store} {e : Fault} (h : s.print k = .error e) : Slip e :=
  slip_bind h (fun _ => slip_get) nofun

theorem slip_copy {dst src : Int} {n : Nat} {s : Store} {e : Fault}
    (h : s.copy dst src n = .error e) : Slip e := by
  induction n generalizing e with
  | zero => cases h
  | succ n ih =>
    refine slip_bind h (fun _ => ih) fun s' _ e h => ?_
    unfold move at h
    split at h
    · cases h
    · cases h
      exact .inl rfl

theorem slip_apply {op : BinOp} {origin top : Int} {s : Store} {e : Fault}
    (h : s.apply op origin top = .error e) : Slip e := by
  refine slip_bind h (fun _ => slip_get) fun x _ e h => ?_
  refine slip_bind h (fun _ => slip_get) fun y _ e h => ?_
  refine slip_bind h (fun e h => ?_) fun v _ e => slip_set
  unfold arithInt at h
  split at h
  · cases h
  · cases h
  · cases h
  · unfold divInt at h
    split at h
    · cases h
      exact .inr rfl
    · split at h
      · cases h
        exact .inr rfl
      · cases h

theorem slip_applyOp {t : TokenType} {origin top : Int} {s : Store} {e : Fault}
    (h : s.applyOp t origin top = .error e) : Slip e := by
  unfold applyOp at h
  split at h
  · exact slip_apply h
  · exact slip_apply h
  · exact slip_apply h
  · exact slip_apply h
  · cases h

end Store

open Store

namespace Expr

variable (host : Host)

mutual

theorem slip_run (e : Expr) {k : Int} {s : Store} {err : Fault} (h : e.run host k s = .error err) :
    Slip err := by
  cases e with
  | TOKEN start end_ v =>
    rw [run] at h
    split at h
    · exact slip_set h
    · exact slip_set h
    · cases h
  | OPS start end_ ops exprs => exact slip_runOps ops exprs h
  | FUNCALL start end_ exprs => exact slip_runCall exprs h

theorem slip_runOps (ops : List TokenType) (exprs : List Expr) {k : Int} {s : Store} {err : Fault}
    (h : runOps host ops exprs k s = .error err) : Slip err := by
  cases exprs with
  | nil => cases h
  | cons e es =>
    refine slip_bind h (fun _ => slip_run e) fun s' _ err h => ?_
    split at h
    · exact slip_bind h (fun _ => slip_get) fun x _ _ => slip_set
    · exact slip_runChain ops es h

theorem slip_runChain (ops : List TokenType) (es : List Expr) {origin top : Int} {s : Store}
    {err : Fault} (h : runChain host origin top ops es s = .error err) : Slip err := by
  cases es with
  | nil => cases ops <;> cases h
  | cons e es =>
    cases ops with
    | nil => cases h
    | cons t ops =>
      refine slip_bind h (fun _ => slip_run e) fun s' _ err h => ?_
      exact slip_bind h (fun _ => slip_applyOp) fun s' _ _ => slip_runChain ops es

theorem slip_runCall (exprs : List Expr) {k : Int} {s : Store} {err : Fault}
    (h : runCall host exprs k s = .error err) : Slip err := by
  cases exprs with
  | nil => cases h
  | cons f args =>
    refine slip_bind h (fun _ => slip_runArgs args) fun s' _ err h => ?_
    split at h
    · exact slip_print h
    · cases h

theorem slip_runArgs (es : List Expr) {k : Int} {s : Store} {err : Fault}
    (h : runArgs host es k s = .error err) : Slip err := by
  cases es with
  | nil => cases h
  | cons e es => exact slip_bind h (fun _ => slip_run e) fun s' _ _ => slip_runArgs es

end

end Expr

mutual

/-- No `if` among the statements, the blocks of their `for` loops included. -/
def NoIf : Node → Prop
  | .If _ _ _ _ => False
  | .For _ _ _ _ _ block => NoIfBlock block
  | _ => True

def NoIfBlock : Block → Prop
  | .mk _ _ nodes => NoIfNodes nodes

def NoIfNodes : List Node → Prop
  | [] => True
  | node :: nodes => NoIf node ∧ NoIfNodes nodes

end

def Root.NoIf (ast : Root) : Prop := ∀ func ∈ ast.funcs, NoIfBlock func.2

namespace Meaning

variable {host : Host} {table : TypeTable}

mutual

theorem runNode_noIf (node : Node) {l : Layout} {s : Store} :
    (∀ p, runNode host table node l s = .ok p → NoIf node) ∧
    (NoIf node → ∀ e, runNode host table node l s = .error e → Slip e) := by
  cases node with
  | Declaration decl => exact ⟨fun _ _ => trivial, nofun⟩
  | Assignment asgm =>
    refine ⟨fun _ _ => trivial, fun _ e h => ?_⟩
    simp only [runNode] at h
    split at h
    · cases h
    · refine slip_bind h (fun _ => Expr.slip_run host _) fun s' _ e h => ?_
      exact slip_bind h (fun _ => slip_copy) nofun
  | Expr ex => exact ⟨fun _ _ => trivial, fun _ e h => slip_bind h (fun _ => Expr.slip_run host _) nofun⟩
  | If start end_ branches tail => exact ⟨nofun, False.elim⟩
  | For start end_ init cond step block => exact runBlock_noIf block
  | Function start end_ name args rets block => exact ⟨fun _ _ => trivial, nofun⟩
  | Return ret => exact ⟨fun _ _ => trivial, nofun⟩
  | Typedef tdef => exact ⟨fun _ _ => trivial, nofun⟩

theorem runBlock_noIf (block : Block) {l : Layout} {s : Store} :
    (∀ p, runBlock host table block l s = .ok p → NoIfBlock block) ∧
    (NoIfBlock block → ∀ e, runBlock host table block l s = .error e → Slip e) := by
  cases block with
  | mk start end_ nodes => exact runNodes_noIf nodes

theorem runNodes_noIf (nodes : List Node) {l : Layout} {s : Store} :
    (∀ p, runNodes host table nodes l s = .ok p → NoIfNodes nodes) ∧
    (NoIfNodes nodes → ∀ e, runNodes host table nodes l s = .error e → Slip e) := by
  cases nodes with
  | nil => exact ⟨fun _ _ => trivial, nofun⟩
  | cons node nodes =>
    constructor
    · intro p h
      cases hfirst : runNode host table node l s with
      | error e => simp [runNodes, hfirst] at h
      | ok q =>
        simp only [runNodes, hfirst, Interp.bind_ok] at h
        exact ⟨(runNode_noIf node).1 q hfirst, (runNodes_noIf nodes).1 p h⟩
    · intro noIf e h
      refine slip_bind h ((runNode_noIf node).2 noIf.1) fun q _ e h => ?_
      exact (runNodes_noIf nodes).2 noIf.2 e h

end

theorem runFuncs_noIf (funcs : List (Bytes × Block)) {s : Store} :
    (∀ s', runFuncs host table funcs s = .ok s' → ∀ func ∈ funcs, NoIfBlock func.2) ∧
    ((∀ func ∈ funcs, NoIfBlock func.2) → ∀ e, runFuncs host table funcs s = .error e → Slip e) := by
  induction funcs generalizing s with
  | nil => exact ⟨fun _ _ => nofun, nofun⟩
  | cons func funcs ih =>
    constructor
    · intro s' h
      cases hfirst : runBlock host table func.2 .empty s with
      | error e => simp [runFuncs, hfirst] at h
      | ok q =>
        simp only [runFuncs, hfirst, Interp.bind_ok] at h
        exact List.forall_mem_cons.mpr ⟨(runBlock_noIf func.2).1 q hfirst, ih.1 s' h⟩
    · intro noIf e h
      obtain ⟨hfirst, hrest⟩ := List.forall_mem_cons.mp noIf
      exact slip_bind h ((runBlock_noIf func.2).2 hfirst) fun q _ e h => ih.2 hrest e h

end Meaning

/-- A meaning exists exactly when there is no `if`, no slot outside the stack is used and no
division is undefined. -/
theorem Root.run_ok_iff (host : Host) (table : TypeTable) (ast : Root) :
    (∃ s, ast.run host table = .ok s) ↔
      ast.NoIf ∧ ast.run host table ≠ .error .stack ∧ ast.run host table ≠ .error .divide := by
  obtain ⟨noIf, slip⟩ := @Meaning.runFuncs_noIf host table ast.funcs .init
  constructor
  · rintro ⟨s, hs⟩
    exact ⟨noIf s hs, by simp [hs], by simp [hs]⟩
  · rintro ⟨hif, hstack, hdivide⟩
    cases h : ast.run host table with
    | ok s => exact ⟨s, rfl⟩
    | error e =>
      rcases slip hif e h with rfl | rfl
      · exact absurd h hstack
      · exact absurd h hdivide

/-- A compiled program runs without fault exactly when its source has no `if`, uses no slot
outside the stack and divides neither by zero nor the minimum by -1. -/
theorem never_faults_iff {host : Host} {F : FloatOps} {ast : Root} {c : Compiler}
    (h : Compiler.compile host ast .init = some c) :
    (∀ ticks e, ByteCodeVM.Run F c.program_ ticks .Init ≠ .error e) ↔
      ast.NoIf ∧ ast.run host c.type_table_ ≠ .error .stack ∧
        ast.run host c.type_table_ ≠ .error .divide := by
  rw [← Root.run_ok_iff]
  constructor
  · intro never
    cases hrun : ast.run host c.type_table_ with
    | ok s => exact ⟨s, rfl⟩
    | error e =>
      have fault := Compiler.run_compiled host F h (Nat.le_refl _)
      rw [hrun] at fault
      exact absurd fault (never _ e)
  · rintro ⟨s, hs⟩ ticks e fault
    have later := Interp.run_error_add ticks c.program_.length fault
    have done := Compiler.run_compiled host F h (Nat.le_add_left c.program_.length ticks)
    rw [hs] at done
    exact nomatch later.symm.trans done

def printCallTwo : Expr :=
  .FUNCALL .init .init [.TOKEN .init .init (.CreateSymbol 5 (bytes "print")),
    .TOKEN .init .init (.CreateInt 1 2)]

def Node.func (name : String) (nodes : List Node) : Node :=
  .Function .init .init (bytes name) [] [] (.mk .init .init nodes)

theorem never_faults_forDivision : ∃ ast c,
    (Root.parse 60 (TokenStream.init (bytes ("func main()\x7b\nvar x int = 0\n" ++
      "for var i int = 0; i < 1; i = i + 1 \x7b\nx = 6 / 3\nprint(2)\n\x7d\n\x7d\n")))).value = some ast ∧
    Compiler.compile .plain ast .init = some c ∧ c.errors_ = [] ∧
    ∀ ticks e, ByteCodeVM.Run .unused c.program_ ticks .Init ≠ .error e := by
  have run : ((Root.parse 60 (TokenStream.init (bytes ("func main()\x7b\nvar x int = 0\n" ++
      "for var i int = 0; i < 1; i = i + 1 \x7b\nx = 6 / 3\nprint(2)\n\x7d\n\x7d\n")))).value.any
      fun ast => (Compiler.compile .plain ast .init).any fun c =>
        c.errors_.isEmpty && (ast.run .plain c.type_table_).isOk) = true := by
    decide +kernel
  simp only [Option.any_eq_true, Bool.and_eq_true, List.isEmpty_iff] at run
  obtain ⟨ast, parsed, c, compiled, no_errors, meaning⟩ := run
  refine ⟨ast, c, parsed, compiled, no_errors, (never_faults_iff compiled).mpr ?_⟩
  refine (Root.run_ok_iff _ _ _).mp ?_
  cases last : ast.run .plain c.type_table_ with
  | ok s => exact ⟨s, rfl⟩
  | error e => simp [last, Except.isOk, Except.toBool] at meaning

/-- An `if` is compiled to a jump whose operands are no stack addresses. -/
theorem if_faults : ∃ ast c,
    (Root.parse 20 (TokenStream.init (bytes "func main()\x7b\nif true \x7b \x7d\n\x7d\n"))).value = some ast ∧
    Compiler.compile .plain ast .init = some c ∧ c.errors_ = [] ∧
    ∃ e, ByteCodeVM.Run .unused c.program_ 1 .Init = .error e := by
  have run : ((Root.parse 20 (TokenStream.init (bytes "func main()\x7b\nif true \x7b \x7d\n\x7d\n"))).value.any
      fun ast => (Compiler.compile .plain ast .init).any fun c =>
        c.errors_.isEmpty && !(ByteCodeVM.Run .unused c.program_ 1 .Init).isOk) = true := by
    decide +kernel
  simp only [Option.any_eq_true, Bool.and_eq_true, List.isEmpty_iff, Bool.not_eq_true'] at run
  obtain ⟨ast, parsed, c, compiled, no_errors, fault⟩ := run
  refine ⟨ast, c, parsed, compiled, no_errors, ?_⟩
  cases last : ByteCodeVM.Run .unused c.program_ 1 .Init with
  | error e => exact ⟨e, rfl⟩
  | ok vm => simp [last, Except.isOk, Except.toBool] at fault

end Mygo
