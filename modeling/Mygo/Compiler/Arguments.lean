import Mygo.Compiler.Control

namespace Mygo

open ByteMemory Arithmetic

namespace Expr

variable {host : Host}

mutual

theorem intExpr_of_eval {e : Expr} {x : Int} (ref : e.eval int32 = some x) : Control.IntExpr e := by
  cases e with
  | TOKEN start end_ v =>
    simp only [eval, int32] at ref
    split at ref
    · next int => exact .inl int
    · cases ref
  | OPS start end_ ops exprs => exact intExpr_of_evalOps ref
  | FUNCALL => cases ref

theorem intExpr_of_evalOps {ops : List TokenType} {exprs : List Expr} {x : Int}
    (ref : evalOps int32 ops exprs = some x) : Control.IntExprs exprs ∧
      (ops = [.Sub] ∧ exprs.length = 1 ∨ exprs.length = ops.length + 1 ∧ ∀ t ∈ ops, Compiler.IsArith t) := by
  cases exprs with
  | nil => cases ref
  | cons e es =>
    obtain ⟨y, hy, ref⟩ := Option.bind_eq_some_iff.mp ref
    have first := intExpr_of_eval hy
    split at ref
    · next unary =>
      obtain ⟨rfl, rfl⟩ := unary
      exact ⟨⟨first, trivial⟩, .inl ⟨rfl, rfl⟩⟩
    · obtain ⟨rest, count, arith⟩ := intExprs_of_evalChain ref
      exact ⟨⟨first, rest⟩, .inr ⟨congrArg Nat.succ count, arith⟩⟩

theorem intExprs_of_evalChain {ops : List TokenType} {es : List Expr} {acc x : Int}
    (ref : evalChain int32 acc ops es = some x) :
    Control.IntExprs es ∧ es.length = ops.length ∧ ∀ t ∈ ops, Compiler.IsArith t := by
  cases es with
  | nil =>
    cases ops with
    | nil => exact ⟨trivial, rfl, nofun⟩
    | cons t ops => cases ref
  | cons e es =>
    cases ops with
    | nil => cases ref
    | cons t ops =>
      obtain ⟨y, hy, ref⟩ := Option.bind_eq_some_iff.mp ref
      obtain ⟨z, hz, ref⟩ := Option.bind_eq_some_iff.mp ref
      obtain ⟨rest, count, arith⟩ := intExprs_of_evalChain ref
      exact ⟨⟨intExpr_of_eval hy, rest⟩, congrArg Nat.succ count,
        List.forall_mem_cons.mpr ⟨Compiler.isArith_of_op hz, arith⟩⟩

end

theorem set_fits {k : Int} {v : BitVec 32} {s s' : Store} (h : s.set k v = .ok s') : SlotFits k 4 := by
  unfold Store.set at h
  split at h
  · next fits => exact fits
  · cases h

mutual

theorem run_fits {e : Expr} {x : Int} (ref : e.eval int32 = some x) {k : Int} {s s' : Store}
    (h : e.run host k s = .ok s') : SlotFits k (4 * e.scratch) := by
  cases e with
  | TOKEN start end_ v =>
    simp only [eval, int32] at ref
    split at ref
    · next int =>
      simp only [run, int] at h
      exact set_fits h
    · cases ref
  | OPS start end_ ops exprs => exact runOps_fits ref h
  | FUNCALL => cases ref

theorem runOps_fits {ops : List TokenType} {exprs : List Expr} {x : Int}
    (ref : evalOps int32 ops exprs = some x) {k : Int} {s s' : Store}
    (h : runOps host ops exprs k s = .ok s') : SlotFits k (4 * scratchOps exprs) := by
  cases exprs with
  | nil => cases ref
  | cons e es =>
    obtain ⟨y, hy, ref⟩ := Option.bind_eq_some_iff.mp ref
    obtain ⟨s₁, h₁, h⟩ := Control.ok_bind h
    have first : SlotFits k (4 * e.scratch) := run_fits hy h₁
    have one : 1 ≤ e.scratch := Compiler.scratch_pos hy
    rw [scratchOps]
    split at h
    · next unary =>
      obtain ⟨-, rfl⟩ := unary
      rw [scratchRest, Nat.max_eq_left (Nat.zero_le _)]
      exact first
    · next chain =>
      rw [if_neg chain] at ref
      unfold SlotFits at first ⊢
      have bumped : i32 (k + 4) = k + 4 := i32_of_isInt (by
        unfold IsInt
        unfold MAX_STACK at first
        omega)
      rw [bumped] at h
      have rest : k + 4 * (scratchRest es : Int) ≤ MAX_STACK := runChain_fits ref (by omega) h
      refine ⟨first.1, ?_⟩
      rcases Nat.le_total e.scratch (scratchRest es) with less | more
      · rw [Nat.max_eq_right less]
        omega
      · rw [Nat.max_eq_left more]
        exact first.2

theorem runChain_fits {ops : List TokenType} {es : List Expr} {acc x : Int}
    (ref : evalChain int32 acc ops es = some x) {k : Int} {s s' : Store} (low : k ≤ MAX_STACK)
    (h : runChain host k (k + 4) ops es s = .ok s') : k + 4 * (scratchRest es : Int) ≤ MAX_STACK := by
  cases es with
  | nil =>
    rw [scratchRest]
    omega
  | cons e es =>
    cases ops with
    | nil => cases ref
    | cons t ops =>
      obtain ⟨y, hy, ref⟩ := Option.bind_eq_some_iff.mp ref
      obtain ⟨z, hz, ref⟩ := Option.bind_eq_some_iff.mp ref
      obtain ⟨s₁, h₁, h⟩ := Control.ok_bind h
      obtain ⟨s₂, h₂, h⟩ := Control.ok_bind h
      have first : SlotFits (k + 4) (4 * e.scratch) := run_fits hy h₁
      have rest : k + 4 * (scratchRest es : Int) ≤ MAX_STACK := runChain_fits ref low h
      unfold SlotFits at first
      rw [scratchRest]
      rcases Nat.le_total (1 + e.scratch) (scratchRest es) with less | more
      · rwa [Nat.max_eq_right less]
      · rw [Nat.max_eq_left more]
        omega

end

theorem runArgs_out {args : List Expr} (ref : ∀ e ∈ args, e.eval int32 ≠ none) {k : Int} {s s' : Store}
    (h : runArgs host args k s = .ok s') : s'.out = s.out := by
  induction args generalizing s with
  | nil =>
    cases h
    rfl
  | cons e es ih =>
    obtain ⟨first, rest⟩ := List.forall_mem_cons.mp ref
    obtain ⟨x, value⟩ := Option.ne_none_iff_exists'.mp first
    obtain ⟨s₁, h₁, h⟩ := Control.ok_bind h
    exact (ih rest h).trans (Control.out_run e (intExpr_of_eval value) h₁)

end Expr

namespace Arith

open Compiler

variable {host : Host} {F : FloatOps} {start end_ start' end' : Loc} {v : Value} {args : List Expr}
  {c : Compiler}

/-- The code of the statement prints the values of all its arguments in order. -/
def PrintsAll (host : Host) (F : FloatOps) (call : Expr) (args : List Expr) (c : Compiler) : Prop :=
  ∃ code, compile_statement host (.Expr call) c = some (c.emit code) ∧
    ∀ vm : ByteCodeVM, vm.Flat → ∃ vm', (ByteCodeVM.interp F).execList code vm = .ok vm' ∧
      vm'.out = vm.out ++ args.map fun e => Output.I32 (reference e)

theorem emit_inj {code code' : List Instruction} (h : some (c.emit code) = some (c.emit code')) :
    code = code' :=
  List.append_cancel_left (congrArg (fun c : Compiler => c.current_func_.instructions) (Option.some.inj h))

theorem compile_print_effect (host : Host) (F : FloatOps) (start end_ : Loc)
    (callee : v.str_data_ = bytes "print") {e : Expr} {x : Int} (ref : e.eval int32 = some x)
    (fits : SlotFits c.top (4 * e.scratch)) :
    ∃ code, ∃ k : Nat, compile_statement host (.Expr (.FUNCALL start end_ [.TOKEN start' end' v, e])) c =
      some (c.emit code) ∧ Effect F code (fun _ => none) k [.print e] := by
  obtain ⟨k, top⟩ := Int.eq_ofNat_of_zero_le fits.1
  have room : k + 4 * e.scratch ≤ MAX_STACK := by
    have := fits.2
    omega
  have one : 1 ≤ e.scratch := scratch_pos ref
  obtain ⟨code, hcode, computes⟩ := computes_expr host F e ref room
  refine ⟨_, k, ?_, .print computes (by omega)⟩
  rw [compile_statement]
  exact compile_print host callee top hcode

theorem runCall_print {args : List Expr} {k : Int} {s s' : Store} (ref : ∀ e ∈ args, e.eval int32 ≠ none)
    (callee : v.str_data_ = bytes "print")
    (h : Expr.runCall host (.TOKEN start' end' v :: args) k s = .ok s') :
    ∃ w s₁, Expr.runArgs host args k s = .ok s₁ ∧ s'.out = s.out ++ [.I32 w] := by
  obtain ⟨s₁, h₁, h⟩ := Control.ok_bind h
  change (if v.str_data_ = bytes "print" then _ else _) = _ at h
  rw [if_pos callee] at h
  obtain ⟨w, -, h⟩ := Control.ok_bind h
  cases h
  exact ⟨w, s₁, h₁, by rw [Expr.runArgs_out ref h₁]⟩

/-- There is one `print` for all arguments, so that there must be only one, and it must keep its
value when operands are exchanged. -/
theorem printsAll_iff (callee : v.str_data_ = bytes "print") (ref : ∀ e ∈ args, e.eval int32 ≠ none)
    (top : IsInt c.top) :
    PrintsAll host F (.FUNCALL start end_ (.TOKEN start' end' v :: args)) args c ↔
      ∃ e, args = [e] ∧ e.eval exchanged = some (reference e) ∧ SlotFits c.top (4 * e.scratch) := by
  have flat : ByteCodeVM.Init.Flat := ⟨rfl, rfl⟩
  constructor
  · rintro ⟨code, compiled, prints⟩
    change compile_expr host _ c = _ at compiled
    rw [compile_expr_eq] at compiled
    obtain ⟨code', hcode, same⟩ := Option.map_eq_some_iff.mp compiled
    obtain rfl := emit_inj (congrArg some same)
    obtain ⟨vm, run, out⟩ := prints .Init flat
    have performed := performs_exprCode host F _ top hcode .Init flat
    rw [run, Expr.run] at performed
    cases ran : Expr.runCall host (.TOKEN start' end' v :: args) c.top (ByteCodeVM.view .Init) with
    | error e =>
      rw [ran] at performed
      cases performed
    | ok s' =>
      rw [ran] at performed
      obtain rfl : vm = ByteCodeVM.Init.advance code'.length s' := Except.ok.inj performed
      obtain ⟨w, s₁, args_run, out'⟩ := runCall_print ref callee ran
      have single : args.map (fun e => Output.I32 (reference e)) = [.I32 w] :=
        List.append_cancel_left (out.symm.trans out')
      obtain ⟨e, rfl, -⟩ := List.map_eq_singleton_iff.mp single
      obtain ⟨x, hx⟩ := Option.ne_none_iff_exists'.mp (ref e (.head _))
      obtain ⟨s₂, e_run, -⟩ := Control.ok_bind args_run
      have fits := Expr.run_fits hx e_run
      obtain ⟨code, k, compiled', effect⟩ := compile_print_effect host F start end_ callee hx fits
      have again : compile_expr host (.FUNCALL start end_ [.TOKEN start' end' v, e]) c =
          some (c.emit code') := by
        rw [compile_expr_eq, hcode, Option.map_some]
      obtain rfl := emit_inj (again.symm.trans compiled')
      have defined : e.eval exchanged ≠ none := by
        intro undefined
        cases run.symm.trans (effect.fault flat ⟨e, .head _, undefined⟩)
      obtain ⟨mem, run', -⟩ := effect.value flat (List.forall_mem_singleton.mpr defined)
      have state := Except.ok.inj (run.symm.trans run')
      have shown : [Output.I32 (word e)] = [Output.I32 (reference e)] :=
        List.append_cancel_left ((congrArg ByteCodeVM.out state).symm.trans out)
      refine ⟨e, rfl, ?_, fits⟩
      rw [eval_word defined, Output.I32.inj (List.cons.inj shown).1]
  · rintro ⟨e, rfl, value, fits⟩
    obtain ⟨x, hx⟩ := Option.ne_none_iff_exists'.mp (ref e (.head _))
    obtain ⟨code, k, compiled, effect⟩ := compile_print_effect host F start end_ callee hx fits
    refine ⟨code, compiled, fun vm flat => ?_⟩
    obtain ⟨mem, run, -⟩ := effect.value flat (List.forall_mem_singleton.mpr (by rw [value]; nofun))
    have word_eq : word e = reference e := by rw [word, value, Option.getD_some]
    exact ⟨_, run, congrArg (fun w => vm.out ++ [Output.I32 w]) word_eq⟩

theorem printsAll_product :
    PrintsAll .plain .unused (.FUNCALL .init .init
      [.TOKEN .init .init (.CreateSymbol 5 (bytes "print")), .OPS .init .init [.Star] [intToken 2, intToken 4]])
      [.OPS .init .init [.Star] [intToken 2, intToken 4]] .init := by
  have ref : ∀ e ∈ [Expr.OPS .init .init [.Star] [intToken 2, intToken 4]], e.eval int32 ≠ none :=
    List.forall_mem_singleton.mpr (by decide)
  exact (printsAll_iff rfl ref (by decide)).mpr ⟨_, rfl, by decide, by decide⟩

/-- `print(1, 2)` prints 2. -/
theorem first_argument_lost :
    (∀ e ∈ [intToken 1, intToken 2], e.eval int32 ≠ none) ∧
    ¬ PrintsAll .plain .unused (.FUNCALL .init .init
      [.TOKEN .init .init (.CreateSymbol 5 (bytes "print")), intToken 1, intToken 2])
      [intToken 1, intToken 2] .init := by
  refine ⟨List.forall_mem_cons.mpr ⟨by decide, List.forall_mem_singleton.mpr (by decide)⟩, ?_⟩
  rintro ⟨code, compiled, prints⟩
  obtain ⟨vm, run, out⟩ := prints .Init ⟨rfl, rfl⟩
  have emitted : code = [⟨.Set32, stackTop 0, i32u64 1, 0⟩, ⟨.Set32, stackTop 0, i32u64 2, 0⟩,
      ⟨.Call, SC_PRINT_I32, stackTop 0, 0⟩] :=
    emit_inj (compiled.symm.trans rfl)
  have shown : ((ByteCodeVM.interp .unused).execList [⟨.Set32, stackTop 0, i32u64 1, 0⟩,
      ⟨.Set32, stackTop 0, i32u64 2, 0⟩, ⟨.Call, SC_PRINT_I32, stackTop 0, 0⟩] .Init).toOption.map (·.out) =
        some [Output.I32 2] := by decide
  rw [← emitted, run] at shown
  exact absurd (Option.some.inj (shown.symm.trans (congrArg some out))) (by decide)

end Arith

end Mygo
