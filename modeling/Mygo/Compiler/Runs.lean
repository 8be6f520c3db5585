import Mygo.Compiler.Linking

namespace Mygo

namespace ByteCodeVM

variable {F : FloatOps} {vm vm' : ByteCodeVM}

def RunSlices (F : FloatOps) (program : Program) (slices : List Nat) (vm : ByteCodeVM) : Except Fault ByteCodeVM :=
  (interp F).runSlices program slices vm

theorem execList_emitted {code : List Instruction} (emitted : ∀ i ∈ code, Emitted i)
    (done : (interp F).execList code vm = .ok vm') :
    ∃ m o, vm' = { vm with out := vm.out ++ o }.after code.length m := by
  induction code generalizing vm with
  | nil =>
    cases done
    exact ⟨_, [], by rw [List.append_nil]; rfl⟩
  | cons i code ih =>
    obtain ⟨first, rest⟩ := List.forall_mem_cons.mp emitted
    simp only [Interp.execList] at done
    split at done
    · next u step =>
      obtain ⟨m, o, rfl⟩ := exec_emitted first step
      obtain ⟨m', o', rfl⟩ := ih rest done
      refine ⟨m', o ++ o', ?_⟩
      simp only [after, List.length_cons, List.append_assoc, Nat.add_assoc, Nat.add_comm 1]
    · cases done

end ByteCodeVM

open ByteCodeVM

variable (host : Host) (F : FloatOps)

/-- What the machine does with the linked program is what the run of the tree does, at the end of each function
and at the end of the program; in between it goes straight through the code and prints nothing else. -/
structure RunsAs (ast : Root) (c : Compiler) : Prop where
  between : ∀ n slices, slices.sum = ((c.func_table_.take n).flatMap (·.instructions)).length →
    RunSlices F c.program_ slices .Init =
      (Meaning.runFuncs host c.type_table_ (ast.funcs.take n) .init).map (ByteCodeVM.Init.advance slices.sum)
  ends : ∀ slices, c.program_.length ≤ slices.sum →
    RunSlices F c.program_ slices .Init =
      (ast.run host c.type_table_).map (ByteCodeVM.Init.advance c.program_.length)
  inside : ∀ slices vm, RunSlices F c.program_ slices .Init = .ok vm →
    (∃ m, vm = { ByteCodeVM.Init with pc_ := min slices.sum c.program_.length, stack_ := m, out := vm.out }) ∧
      ∀ s, ast.run host c.type_table_ = .ok s → vm.out <+: s.out
  faults : ∀ slices e, RunSlices F c.program_ slices .Init = .error e → ast.run host c.type_table_ = .error e

theorem Root.follows {ast : Root} {c : Compiler} (h : Compiler.compile host ast .init = some c) :
    RunsAs host F ast c := by
  obtain ⟨linked, compiled⟩ := Compiler.compile_linked host (Compiler.compiled_func host F) h
  have emitted := Compiler.emitted_funcs host F compiled
  rw [← linked] at emitted
  have straight : ∀ i ∈ c.program_, (interp F).Straight i := fun i hi => straight_emitted (emitted i hi)
  have runs : ∀ slices, RunSlices F c.program_ slices .Init =
      (interp F).execList (c.program_.take slices.sum) .Init := fun slices =>
    (Interp.runSlices_eq ..).trans (Interp.run_straight_any straight rfl rfl _)
  have ends : ∀ slices, c.program_.length ≤ slices.sum → RunSlices F c.program_ slices .Init =
      (ast.run host c.type_table_).map (ByteCodeVM.Init.advance c.program_.length) := fun slices enough =>
    (Interp.runSlices_eq ..).trans (Compiler.run_compiled host F h enough)
  refine ⟨fun n slices boundary => ?_, ends, fun slices vm done => ⟨?_, fun s final => ?_⟩, fun slices e fault => ?_⟩
  · have code : c.program_.take slices.sum = (c.func_table_.take n).flatMap (·.instructions) := by
      rw [boundary, linked]
      nth_rewrite 2 [← List.take_append_drop n c.func_table_]
      rw [List.flatMap_append]
      exact List.take_left
    rw [runs, code, Compiler.performs_funcs host F (List.forall₂_take n compiled) .Init ⟨rfl, rfl⟩, ← boundary]
    rfl
  · rw [runs] at done
    obtain ⟨m, o, rfl⟩ := execList_emitted (fun i hi => emitted i (List.mem_of_mem_take hi)) done
    refine ⟨m, ?_⟩
    simp [after, ByteCodeVM.Init]
  · have all := ends [c.program_.length] (by simp)
    rw [runs, List.sum_singleton, List.take_length, final,
      ← List.take_append_drop slices.sum c.program_, Interp.execList_append] at all
    rw [runs] at done
    rw [done] at all
    obtain ⟨m, o, same⟩ := execList_emitted (fun i hi => emitted i (List.mem_of_mem_drop hi)) all
    exact ⟨o, (congrArg ByteCodeVM.out same).symm⟩
  · have later := Interp.run_error_add _ c.program_.length ((Interp.runSlices_eq ..).symm.trans fault)
    have done := Compiler.run_compiled host F h (Nat.le_add_left c.program_.length slices.sum)
    cases final : ast.run host c.type_table_ with
    | ok s =>
      rw [final] at done
      cases later.symm.trans done
    | error e' =>
      rw [final] at done
      cases later.symm.trans done
      rfl

theorem Root.follows_printTwice : ∃ c, Compiler.compile .plain printTwice .init = some c ∧
    RunsAs .plain .unused printTwice c :=
  ⟨_, rfl, Root.follows .plain .unused rfl⟩

end Mygo
