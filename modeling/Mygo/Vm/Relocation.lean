import Mygo.Vm.Machine

namespace Mygo

open ByteMemory

def CallPoint.shift (d : Nat) (cp : CallPoint) : CallPoint :=
  { cp with
    stack_top := cp.stack_top + BitVec.ofNat 64 d
    stack_bottom := cp.stack_bottom + BitVec.ofNat 64 d }

namespace ByteCodeVM

/-- The second machine does what the first does, `d` bytes higher on its stack, above the bytes `low`, inside the
calls of `outer` and behind the output `before`. -/
structure Relocated (d : Nat) (low : Mem) (outer : List CallPoint) (before : List Output)
    (vm vm' : ByteCodeVM) : Prop where
  pc : vm'.pc_ = vm.pc_
  top : vm'.stack_top_ = vm.stack_top_ + BitVec.ofNat 64 d
  bottom : vm'.stack_bottom_ = vm.stack_bottom_ + BitVec.ofNat 64 d
  calls : vm'.call_stack_ = vm.call_stack_.map (CallPoint.shift d) ++ outer
  finished : vm'.finished_ = vm.finished_
  stack : ∀ j, j + d < MAX_STACK → vm'.stack_ (j + d) = vm.stack_ j
  below : ∀ j, j < d → vm'.stack_ j = low j
  out : vm'.out = before ++ vm.out

/-- What succeeds in the first machine does so in the second, or runs out of stack there. -/
def Deeper {α β : Type} (R : α → β → Prop) (r : Except Fault α) (r' : Except Fault β) : Prop :=
  ∀ a, r = .ok a → (∃ b, r' = .ok b ∧ R a b) ∨ r' = .error .stack

variable {F : FloatOps} {vm vm' : ByteCodeVM} {d : Nat} {low : Mem} {outer : List CallPoint} {before : List Output}

theorem moved (x y z : Address) : x + y + z = x + z + y := by ac_rfl

theorem Relocated.access (related : Relocated d low outer before vm vm') (few : d ≤ MAX_STACK) (addr : Address)
    (n : Nat) : Deeper (fun i j => j = i + d ∧ i + d + n ≤ MAX_STACK) (vm.access addr n) (vm'.access addr n) := by
  intro i found
  have translated : ∀ x, vm.transAddr addr = .ok x → vm'.transAddr addr = .ok (x + BitVec.ofNat 64 d) := by
    intro x first
    rw [transAddr] at first ⊢
    split at first
    · next top =>
      cases first
      rw [if_pos top, related.top, moved]
    · next top =>
      split at first
      · next tail =>
        cases first
        rw [if_neg top, if_pos tail, related.bottom, moved]
      · cases first
  rw [ByteCodeVM.access] at found ⊢
  split at found
  · next x first =>
    split at found
    · next fits =>
      cases found
      rw [translated x first]
      have higher : (x + BitVec.ofNat 64 d).toNat = x.toNat + d := by
        rw [BitVec.toNat_add, BitVec.toNat_ofNat]
        unfold MAX_STACK at few fits
        omega
      simp only [higher]
      split
      · next inside => exact .inl ⟨_, rfl, rfl, inside⟩
      · exact .inr rfl
    · cases found
  · cases found

theorem Relocated.load (related : Relocated d low outer before vm vm') (few : d ≤ MAX_STACK) (addr : Address)
    (w : Nat) : Deeper Eq (vm.load addr w) (vm'.load addr w) := by
  intro v loaded
  rw [ByteCodeVM.load] at loaded ⊢
  split at loaded
  · next i found =>
    cases loaded
    rcases related.access few addr _ i found with ⟨_, found', rfl, inside⟩ | failed
    · rw [found']
      refine .inl ⟨_, rfl, load_shift fun j small => ?_⟩
      rw [Nat.add_right_comm]
      exact (related.stack _ (by omega)).symm
    · rw [failed]
      exact .inr rfl
  · cases loaded

theorem Relocated.store (related : Relocated d low outer before vm vm') (few : d ≤ MAX_STACK) (addr : Address)
    {w : Nat} (v : BitVec w) :
    Deeper (Relocated d low outer before) (vm.store addr v) (vm'.store addr v) := by
  intro u stored
  rw [ByteCodeVM.store] at stored ⊢
  split at stored
  · next i found =>
    cases stored
    rcases related.access few addr _ i found with ⟨_, found', rfl, -⟩ | failed
    · rw [found']
      refine .inl ⟨_, rfl, { related with
        stack := fun j small => store_shift i v (related.stack j small)
        below := fun j under => ?_ }⟩
      exact (store_of_outside _ _ v j (.inl (by omega))).trans (related.below j under)
    · rw [failed]
      exact .inr rfl
  · cases stored

theorem Relocated.next (related : Relocated d low outer before vm vm') :
    Relocated d low outer before vm.next vm'.next :=
  { related with pc := congrArg (· + 1) related.pc }

theorem Relocated.print (related : Relocated d low outer before vm vm') (o : Output) :
    Relocated d low outer before (vm.print o) (vm'.print o) :=
  { related with out := (congrArg (· ++ [o]) related.out).trans (List.append_assoc _ _ _) }

theorem Relocated.put (related : Relocated d low outer before vm vm') (few : d ≤ MAX_STACK) (addr : Address)
    {w : Nat} (v : BitVec w) :
    Deeper (Relocated d low outer before) (vm.put addr v) (vm'.put addr v) := by
  intro u done
  rw [ByteCodeVM.put] at done ⊢
  split at done
  · next t stored =>
    cases done
    rcases related.store few addr v t stored with ⟨t', stored', related'⟩ | failed
    · rw [stored']
      exact .inl ⟨_, rfl, related'.next⟩
    · rw [failed]
      exact .inr rfl
  · cases done

@[elab_as_elim]
theorem Deeper.elim {α β : Type} {R : α → β → Prop} {r : Except Fault α} {r' : Except Fault β}
    {P : Except Fault α → Except Fault β → Prop} (h : Deeper R r r') (fails : ∀ e r', P (.error e) r')
    (stuck : ∀ r, P r (.error .stack)) (ok : ∀ a b, R a b → P (.ok a) (.ok b)) : P r r' := by
  cases r with
  | error e => exact fails e r'
  | ok a =>
    rcases h a rfl with ⟨b, rfl, related⟩ | rfl
    · exact ok a b related
    · exact stuck _

theorem deeper_ok {α β : Type} {R : α → β → Prop} {a : α} {b : β} (h : R a b) : Deeper R (.ok a) (.ok b) := by
  rintro _ ⟨⟩
  exact .inl ⟨b, rfl, h⟩

theorem deeper_error {α β : Type} {R : α → β → Prop} {e : Fault} {r : Except Fault β} :
    Deeper R (.error e : Except Fault α) r := nofun

theorem deeper_stack {α β : Type} {R : α → β → Prop} {r : Except Fault α} :
    Deeper R r (.error .stack : Except Fault β) := fun _ _ => .inr rfl

theorem cstr_shift {m m' : Mem} (left left' i : Nat) (same : ∀ j, j + d < MAX_STACK → m' (j + d) = m j)
    (room : i + d + left' ≤ MAX_STACK) {s : List Byte} (found : cstr m left i = some s) :
    cstr m' left' (i + d) = some s ∨ cstr m' left' (i + d) = none := by
  induction left' generalizing left i s with
  | zero => exact .inr rfl
  | succ left' ih =>
    cases left with
    | zero => cases found
    | succ left =>
      have byte : m' (i + d) = m i := same i (by omega)
      rw [cstr] at found ⊢
      rw [byte]
      split at found
      · next none =>
        cases found
        exact .inl (if_pos none)
      · next more =>
        obtain ⟨rest, tail, rfl⟩ := Option.map_eq_some_iff.mp found
        rw [if_neg more, Nat.add_right_comm]
        rcases ih left (i + 1) (by omega) tail with text | none
        · exact .inl (by rw [text]; rfl)
        · exact .inr (by rw [none]; rfl)

theorem Relocated.builtin (related : Relocated d low outer before vm vm') (few : d ≤ MAX_STACK)
    (call arg1 : Address) : Deeper (Relocated d low outer before) (vm.builtin call arg1) (vm'.builtin call arg1) := by
  have loads8 := related.load few arg1 8
  have loads32 := related.load few arg1 32
  have loads64 := related.load few arg1 64
  have finds := related.access few arg1 1
  unfold ByteCodeVM.builtin
  split
  · refine loads8.elim (fun _ _ => deeper_error) (fun _ => deeper_stack) ?_
    rintro v _ rfl
    exact deeper_ok (related.print _)
  split
  · refine loads32.elim (fun _ _ => deeper_error) (fun _ => deeper_stack) ?_
    rintro v _ rfl
    exact deeper_ok (related.print _)
  split
  · refine loads64.elim (fun _ _ => deeper_error) (fun _ => deeper_stack) ?_
    rintro v _ rfl
    exact deeper_ok (related.print _)
  split
  · refine loads32.elim (fun _ _ => deeper_error) (fun _ => deeper_stack) ?_
    rintro v _ rfl
    exact deeper_ok (related.print _)
  split
  · refine loads64.elim (fun _ _ => deeper_error) (fun _ => deeper_stack) ?_
    rintro v _ rfl
    exact deeper_ok (related.print _)
  split
  · refine finds.elim (fun _ _ => deeper_error) (fun _ => deeper_stack) ?_
    rintro i _ ⟨rfl, inside⟩
    simp only
    split
    · next s text =>
      have room : i + d + (MAX_STACK - (i + d)) ≤ MAX_STACK := by omega
      rcases cstr_shift _ _ _ related.stack room text with text' | none
      · rw [text']
        exact deeper_ok (related.print _)
      · rw [none]
        exact deeper_stack
    · exact deeper_error
  · exact deeper_error

theorem Relocated.readRange (related : Relocated d low outer before vm vm') (few : d ≤ MAX_STACK) (addr : Address)
    (n : Nat) : Deeper Eq (vm.readRange addr n) (vm'.readRange addr n) := by
  induction n generalizing addr with
  | zero => exact deeper_ok rfl
  | succ n ih =>
    have loads := related.load few addr 8
    have rest := ih (addr + 1)
    rw [ByteCodeVM.readRange, ByteCodeVM.readRange]
    refine loads.elim (fun _ _ => deeper_error) (fun _ => deeper_stack) ?_
    rintro b _ rfl
    refine rest.elim (fun _ _ => deeper_error) (fun _ => deeper_stack) ?_
    rintro bs _ rfl
    exact deeper_ok rfl

theorem Relocated.writeRange (few : d ≤ MAX_STACK) (bs : List Byte) {vm vm' : ByteCodeVM}
    (related : Relocated d low outer before vm vm') (addr : Address) :
    Deeper (Relocated d low outer before) (vm.writeRange addr bs) (vm'.writeRange addr bs) := by
  induction bs generalizing vm vm' addr with
  | nil => exact deeper_ok related
  | cons b bs ih =>
    have stores := related.store few addr b
    rw [ByteCodeVM.writeRange, ByteCodeVM.writeRange]
    exact stores.elim (fun _ _ => deeper_error) (fun _ => deeper_stack) fun u u' related' => ih related' (addr + 1)

theorem Relocated.ret (related : Relocated d low outer before vm vm') (few : d ≤ MAX_STACK) (cp : CallPoint)
    (callers : List CallPoint) (ret_addr ret_len : Address) :
    Deeper (Relocated d low outer before) (vm.ret cp callers ret_addr ret_len)
      (vm'.ret (cp.shift d) (callers.map (CallPoint.shift d) ++ outer) ret_addr ret_len) := by
  have content := related.readRange few ret_addr ret_len.toNat
  unfold ByteCodeVM.ret
  refine content.elim (fun _ _ => deeper_error) (fun _ => deeper_stack) ?_
  rintro bs _ rfl
  refine Relocated.writeRange few bs ?_ _
  exact ⟨rfl, rfl, rfl, rfl, related.finished, related.stack, related.below, related.out⟩

theorem Relocated.call (related : Relocated d low outer before vm vm') (arg0 arg1 : Address) :
    Relocated d low outer before (vm.call arg0 arg1) (vm'.call arg0 arg1) where
  pc := rfl
  top := related.bottom
  bottom := related.bottom
  calls := by simp [ByteCodeVM.call, CallPoint.shift, related.calls, related.pc, related.top, related.bottom]
  finished := related.finished
  stack := related.stack
  below := related.below
  out := related.out

theorem Relocated.jump (related : Relocated d low outer before vm vm') (pc : Nat) :
    Relocated d low outer before { vm with pc_ := pc } { vm' with pc_ := pc } :=
  { related with pc := rfl }

theorem Relocated.switch (related : Relocated d low outer before vm vm') (few : d ≤ MAX_STACK) {ins : Instruction}
    (stays : ins.op ≠ .Return) :
    Deeper (Relocated d low outer before) (ByteCodeVM.exec F ins vm) (ByteCodeVM.exec F ins vm') := by
  obtain ⟨op, arg0, arg1, arg2⟩ := ins
  have puts : ∀ {w : Nat} (v : BitVec w), Deeper (Relocated d low outer before) (vm.put arg0 v) (vm'.put arg0 v) :=
    fun v => related.put few arg0 v
  have loads0 := related.load few arg0
  have loads1 := related.load few arg1
  have loads2 := related.load few arg2
  cases op with
  | Move =>
    specialize loads1 8
    simp only [ByteCodeVM.exec]
    refine loads1.elim (fun _ _ => deeper_error) (fun _ => deeper_stack) ?_
    rintro v _ rfl
    exact puts v
  | Set8 | Set32 | Set64 => exact puts _
  | SetStackBottom =>
    refine deeper_ok { related.next with bottom := ?_ }
    simp only [ByteCodeVM.next, related.top, moved]
  | case1 op ty =>
    specialize loads1 ty.width
    specialize loads2 ty.width
    simp only [ByteCodeVM.exec]
    refine loads1.elim (fun _ _ => by cases vm.load arg2 ty.width <;> exact deeper_error)
      (fun _ => by cases vm'.load arg2 ty.width <;> exact deeper_stack) ?_
    rintro a _ rfl
    refine loads2.elim (fun _ _ => deeper_error) (fun _ => deeper_stack) ?_
    rintro b _ rfl
    simp only
    cases F.arith op ty a b with
    | ok v => exact puts v
    | error e => exact deeper_error
  | case2 op ty =>
    specialize loads0 ty.width
    simp only [ByteCodeVM.exec]
    refine loads0.elim (fun _ _ => deeper_error) (fun _ => deeper_stack) ?_
    rintro a _ rfl
    simp only
    cases F.arith op ty a (arg1.setWidth ty.width) with
    | ok v => exact puts v
    | error e => exact deeper_error
  | jump op ty =>
    specialize loads0 ty.width
    specialize loads1 ty.width
    specialize loads2 64
    simp only [ByteCodeVM.exec]
    refine loads0.elim (fun _ _ => by cases vm.load arg1 ty.width <;> exact deeper_error)
      (fun _ => by cases vm'.load arg1 ty.width <;> exact deeper_stack) ?_
    rintro a _ rfl
    refine loads1.elim (fun _ _ => deeper_error) (fun _ => deeper_stack) ?_
    rintro b _ rfl
    simp only
    split
    · refine loads2.elim (fun _ _ => deeper_error) (fun _ => deeper_stack) ?_
      rintro pc _ rfl
      exact deeper_ok (related.jump _)
    · exact deeper_ok related.next
  | toI32 ty =>
    specialize loads1 ty.width
    simp only [ByteCodeVM.exec]
    refine loads1.elim (fun _ _ => deeper_error) (fun _ => deeper_stack) ?_
    rintro v _ rfl
    exact puts _
  | toF32 ty =>
    specialize loads1 ty.width
    simp only [ByteCodeVM.exec]
    refine loads1.elim (fun _ _ => deeper_error) (fun _ => deeper_stack) ?_
    rintro v _ rfl
    exact puts _
  | SavePC =>
    simp only [ByteCodeVM.exec, related.pc]
    exact puts _
  | Call =>
    have calls := related.builtin few arg0 arg1
    simp only [ByteCodeVM.exec]
    split
    · exact deeper_ok (related.call arg0 arg1)
    · generalize vm.builtin arg0 arg1 = r, vm'.builtin arg0 arg1 = r' at calls ⊢
      exact calls.elim (fun _ _ => deeper_error) (fun _ => deeper_stack) fun t t' related' => deeper_ok related'.next
  | Return => exact absurd rfl stays
  | Label => exact deeper_error

theorem Relocated.exec (related : Relocated d low outer before vm vm') (few : d ≤ MAX_STACK) (ins : Instruction)
    {u : ByteCodeVM} (done : ByteCodeVM.exec F ins vm = .ok u) :
    u.finished_ = true ∨ (∃ u', ByteCodeVM.exec F ins vm' = .ok u' ∧ Relocated d low outer before u u') ∨
      ByteCodeVM.exec F ins vm' = .error .stack := by
  by_cases returns : ins.op = .Return
  · obtain ⟨op, arg0, arg1, arg2⟩ := ins
    subst returns
    simp only [ByteCodeVM.exec] at done ⊢
    rw [related.calls]
    cases calls : vm.call_stack_ with
    | nil =>
      rw [calls] at done
      cases done
      exact .inl rfl
    | cons cp callers =>
      rw [calls] at done
      exact .inr (related.ret few cp callers arg0 arg1 u done)
  · exact .inr (related.switch few returns u done)

/-- A run that goes on does the same with its stack `d` bytes higher and inside other calls, and leaves the stack
below as it was, unless it reaches the end of the stack there. -/
theorem relocated {program : Program} {ticks : Nat} {vm vm' u : ByteCodeVM} (few : d ≤ MAX_STACK)
    (related : Relocated d low outer before vm vm') (run : Run F program ticks vm = .ok u)
    (going : u.finished_ = false) :
    (∃ u', Run F program ticks vm' = .ok u' ∧ Relocated d low outer before u u') ∨
      Run F program ticks vm' = .error .stack :=
  Interp.run_follows (fun _ _ related => ⟨related.pc, related.finished⟩)
    (fun ins _ _ _ related done => related.exec few ins done) related run going

def inCall : ByteCodeVM :=
  { Init with stack_top_ := 16, stack_bottom_ := 16, call_stack_ := [⟨7, 0, 16, base STACK_TOP 0⟩] }

def printFive : Program :=
  [⟨.Set32, base STACK_TOP 0, 5, 0⟩, ⟨.Call, SC_PRINT_I32, base STACK_TOP 0, 0⟩]

theorem inCall_relocated : Relocated 16 Init.stack_ [⟨7, 0, 16, base STACK_TOP 0⟩] [] Init inCall where
  pc := rfl
  top := rfl
  bottom := rfl
  calls := rfl
  finished := rfl
  stack := fun _ _ => rfl
  below := fun _ _ => rfl
  out := rfl

theorem relocated_sample : ∃ u, Run .unused printFive 2 Init = .ok u ∧
    ((∃ u', Run .unused printFive 2 inCall = .ok u' ∧
        Relocated 16 Init.stack_ [⟨7, 0, 16, base STACK_TOP 0⟩] [] u u') ∨
      Run .unused printFive 2 inCall = .error .stack) :=
  ⟨_, rfl, relocated (by decide) inCall_relocated rfl rfl⟩

end ByteCodeVM

end Mygo
