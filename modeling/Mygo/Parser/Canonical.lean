import Mygo.Lexer.Render
import Mygo.Parser.Blanks
import Mygo.Parser.Erasure
import Mygo.Parser.Reprint
import Mygo.Parser.Soundness

namespace Mygo

section Source

open Lexer Parser

variable {cs : Bytes} {v : Value}

def Token (v : Value) : Prop :=
  v = .make .Enf 0 ∨ ∃ u r, Value.FromChars (u ++ r) = some v ∧ v.len_ = u.length ∧ u ≠ []

theorem lexed_tokens (rounds : Nat) (cs : Bytes) : ∀ v ∈ lexed rounds cs, Token v := by
  induction rounds generalizing cs with
  | zero => exact List.forall_mem_nil _
  | succ rounds ih =>
    rw [lexed]
    cases here : Value.FromChars cs with
    | none => exact List.forall_mem_nil _
    | some v =>
      by_cases none : cs = []
      · subst none
        cases here
        exact List.forall_mem_singleton.mpr (.inl rfl)
      · have covers := fromChars_inside none here
        have positive := covers.positive
        have within := covers.within
        simp only [if_neg covers.inside]
        refine List.forall_mem_cons.mpr ⟨.inr ⟨cs.take v.len_, cs.drop v.len_, ?_, ?_, ?_⟩, ih _⟩
        · rwa [List.take_append_drop]
        · rw [List.length_take, Nat.min_eq_left within]
        · exact List.ne_nil_of_length_pos (by rw [List.length_take]; omega)

theorem lexed_ended (rounds : Nat) (cs : Bytes) :
    Grammar.Ended (lexed rounds cs) ∨ ∀ v ∈ lexed rounds cs, v.type_ ≠ .Enf := by
  induction rounds generalizing cs with
  | zero => exact .inr (List.forall_mem_nil _)
  | succ rounds ih =>
    rw [lexed]
    cases here : Value.FromChars cs with
    | none => exact .inr (List.forall_mem_nil _)
    | some v =>
      by_cases last : v.type_ = .Enf
      · left
        simp only [if_pos last]
        rw [Grammar.Ended, if_pos last]
      · simp only [if_neg last]
        rcases ih (cs.drop v.len_) with ended | inside
        · left
          rw [Grammar.Ended, if_neg last]
          exact ended
        · exact .inr (List.forall_mem_cons.mpr ⟨last, inside⟩)

theorem visible_mem (h : v ∈ visible cs) : v ∈ sequence cs := by
  rw [visible] at h
  split at h
  · cases h
  · next w ws seq =>
    rw [seq]
    rcases List.mem_cons.mp h with rfl | rest
    · exact List.mem_cons_self
    · exact List.mem_cons_of_mem _ (List.mem_of_mem_filter rest)

theorem ended_filter {vs : List Value} (h : Grammar.Ended vs) : Grammar.Ended (vs.filter (·.type_ ≠ .Space)) := by
  induction vs with
  | nil => exact h
  | cons v vs ih =>
    rw [Grammar.Ended] at h
    by_cases last : v.type_ = .Enf
    · rw [if_pos last] at h
      rw [List.filter_cons_of_pos (by simp [last]), h, List.filter_nil, Grammar.Ended, if_pos last]
    · rw [if_neg last] at h
      by_cases space : v.type_ = .Space
      · rw [List.filter_cons_of_neg (by simp [space])]
        exact ih h
      · rw [List.filter_cons_of_pos (by simp [space]), Grammar.Ended, if_neg last]
        exact ih h

theorem visible_ended (cs : Bytes) : Grammar.Ended (visible cs) ∨ ∀ v ∈ visible cs, v.type_ ≠ .Enf := by
  have cases_ : Grammar.Ended (sequence cs) ∨ ∀ v ∈ sequence cs, v.type_ ≠ .Enf := lexed_ended _ cs
  rcases cases_ with ended | inside
  · left
    rw [visible]
    split
    · next seq =>
      rw [seq] at ended
      exact ended
    · next v vs seq =>
      rw [seq, Grammar.Ended] at ended
      rw [Grammar.Ended]
      split
      · next last =>
        rw [if_pos last] at ended
        rw [ended, List.filter_nil]
      · next other =>
        rw [if_neg other] at ended
        exact ended_filter ended
  · exact .inr fun v member => inside v (visible_mem member)

def Open (s t : Tokens) : Prop := s = t ∧ ∀ v ∈ s.rest, v.type_ ≠ .Enf

theorem similar_open : Similar Open where
  peeks := by
    rintro ⟨rest⟩ _ ⟨rfl, inside⟩
    cases rest with
    | nil => exact .inl ⟨rfl, rfl⟩
    | cons v vs => exact .inr ⟨v, v, _, _, rfl, rfl, rfl, rfl, inside⟩
  nexts := by
    rintro ⟨rest⟩ _ ⟨rfl, inside⟩
    cases rest with
    | nil => exact .inl ⟨rfl, rfl⟩
    | cons v vs =>
      obtain ⟨first, others⟩ := List.forall_mem_cons.mp inside
      by_cases none : vs = []
      · exact .inl ⟨(if_neg first).trans (if_pos none), (if_neg first).trans (if_pos none)⟩
      · exact .inr ⟨_, _, (if_neg first).trans (if_neg none), (if_neg first).trans (if_neg none), rfl, others⟩
  loads := by
    rintro s _ s' _ ⟨rfl, -⟩ ⟨rfl, inside⟩
    exact ⟨rfl, inside⟩

theorem open_kept {α : Type} {V : α → α → Prop} {p : Parsing Tokens α} {ts : List Value}
    (h : Simulates Open Err.Alike V p p) (inside : ∀ v ∈ ts, v.type_ ≠ .Enf) :
    (p ⟨ts⟩).Meets (fun _ t => ∀ v ∈ t.rest, v.type_ ≠ .Enf) (fun _ _ => True) True True := by
  have agrees := h ⟨ts⟩ ⟨ts⟩ ⟨rfl, inside⟩
  cases run : p ⟨ts⟩ with
  | ok a t =>
    rw [run] at agrees
    exact agrees.2.2
  | err | abort | out_of_fuel => trivial

theorem open_root {rounds : Nat} {ts : List Value} {tree : Root} {t : Tokens} (inside : ∀ v ∈ ts, v.type_ ≠ .Enf) :
    Root.parse rounds ⟨ts⟩ ≠ .ok tree t := by
  have fails : ((Root.parse rounds : Parsing Tokens Root) ⟨ts⟩).Meets (fun _ _ => False) (fun _ _ => True)
      True True := by
    refine meets_guarded ?_
    refine meets_bind (meets_attempt (open_kept (similar_open.block rounds) inside)) ?_
    rintro (e | block) ⟨ts₁⟩ inside₁
    · trivial
    · refine meets_bind (open_kept (similar_open.skip_token rounds) inside₁) fun _ ts₂ inside₂ => ?_
      obtain ⟨_ | ⟨v, vs⟩⟩ := ts₂
      · trivial
      · have other : v.type_ ≠ .Enf := inside₂ v List.mem_cons_self
        rw [bind_err (expect_token_other other)]
        trivial
  intro run
  rw [run] at fails
  exact fails

theorem token_bare (h : Token v) : v.erase = v := by
  have bare : Bare v := by
    rcases h with rfl | ⟨u, r, read, -, -⟩
    · exact ⟨rfl, rfl⟩
    · exact fromChars_bare read
  obtain ⟨start, end_, _⟩ := v
  obtain ⟨rfl, rfl⟩ := bare
  rfl

theorem written_symbol (h : Token v) (symbol : v.type_ = .Symbol) :
    Written (Print.symbol v.str_data_) ∧ v.str_data_ ≠ [] := by
  rcases h with rfl | ⟨u, r, read, len, more⟩
  · cases symbol
  · obtain rfl := symbol_read read len more symbol
    exact ⟨written_read read len more nofun nofun ⟨nofun, nofun⟩, more⟩

theorem printing : Grammar.Printing (·.type_ = .Symbol) (fun v => Token v ∧ v.Kept) Written where
  keyword T member := by
    have whole : Print.token T = .make T T.spelling.length := by
      cases T <;> first | rfl | exact absurd member (by decide)
    rw [whole]
    exact written_spelling member
  line := written_line
  atomic v given atomic := by
    have other : v.type_ ≠ .Space ∧ v.type_ ≠ .Enl := by
      constructor
      · intro space
        rw [space] at atomic
        cases atomic
      · intro line
        rw [line] at atomic
        cases atomic
    rw [token_bare given.1]
    rcases given with ⟨rfl | ⟨u, r, read, len, more⟩, kept⟩
    · cases atomic
    · exact written_read read len more other.1 other.2 kept
  symbol v given symbol := (written_symbol given.1 symbol).1
  name v given symbol := (written_symbol given.1 symbol).1

end Source

/-- The text of a tree, with a line for every statement. -/
def Root.format (root : Root) : Bytes := render (Node.printNodes root.nodes)

section Format

open Lexer Grammar TokenStream

variable {src src' : Bytes} {tree tree' : Root}

theorem Root.format_erase (same : tree'.erase = tree.erase) : tree'.format = tree.format := by
  have nodes : Node.eraseBlock tree'.block_ = Node.eraseBlock tree.block_ := congrArg Root.block_ same
  have printed : ∀ block : Block, Node.printNodes (Node.eraseBlock block).nodes_ = Node.printNodes block.nodes_ := by
    rintro ⟨l, r, nodes⟩
    exact Node.printNodes_erase nodes
  rw [Root.format, Root.format, Root.nodes, Root.nodes, ← printed, nodes, printed]

theorem accepted_prints (accepted : Accepts src tree) (named : Followed (·.type_ = .Symbol) (visible src))
    (kept : ∀ v ∈ visible src, v.Kept) (one : tree.Within Counted.one_value) :
    ∃ tree₀ : Root, tree₀.erase = tree.erase ∧ tree₀.Printable ∧ visible tree₀.format = tree₀.print := by
  obtain ⟨rounds, s, run⟩ := accepted
  have tokens := (similar_shows src).root rounds _ _ (shows_init src)
  rw [run] at tokens
  obtain ⟨tree₀, t, run₀, same, -⟩ := tokens.ok_left
  have ended : Ended (visible src) := (visible_ended src).resolve_right fun inside => open_root inside run₀
  have given : ∀ v ∈ visible src, Token v := fun v member => lexed_tokens _ _ v (visible_mem member)
  have derived := root_derives named ended run₀
  have bound : tree.Within bounded := by
    have limits := limits_root rounds (TokenStream.init src)
    rw [run] at limits
    exact limits
  have within : tree₀.Within Counted.single := by
    have erased := @Node.withinBlock_erase Counted.single
    have same₀ : Node.eraseBlock tree₀.block_ = Node.eraseBlock tree.block_ := congrArg Root.block_ same.symm
    exact (erased _).mp (same₀ ▸ (erased _).mpr (Node.WithinBlock.both _ bound one))
  refine ⟨tree₀, same.symm, (derived.fits fun v member symbol => ?_).1 within, ?_⟩
  · exact (written_symbol (given v member) symbol).2
  · obtain ⟨written, -⟩ := derived.prints printing fun v member => ⟨given v member, kept v member⟩
    have nodes : ∀ v ∈ Node.printNodes tree₀.nodes, Written v := by
      obtain ⟨l, r, ⟨l', r', nodes⟩⟩ := tree₀
      simp only [Phrase.Prints, Node.printBlock, List.forall_mem_cons, List.forall_mem_append] at written
      exact written.2.2.1
    exact visible_render nodes

theorem format_parses {tree₀ : Root} (printable : tree₀.Printable) (rounds : Nat)
    (enough : tree₀.print.length + 2 ≤ rounds) :
    Root.parse rounds ⟨tree₀.print⟩ = .ok tree₀.erase (⟨[Print.token .Enf]⟩ : Tokens) := by
  simp only [Root.print, List.length_append, List.length_singleton] at enough
  obtain ⟨n, rfl⟩ : ∃ m, rounds = m + 1 := ⟨rounds - 1, by omega⟩
  have parsed := Parser.attempt_ok (Block.parses_nodes (n := n) (t := Print.token .Enf) [] printable
    (Node.parses_inner tree₀.block_ printable) (by simp only [Root.nodes] at enough; omega) rfl (by simp))
  apply guard_ok
  rw [Root.print, Root.nodes, Parser.bind_ok parsed]
  simp only
  rw [Parser.bind_ok (skip_token_stop (by simp))]
  rfl

theorem format_again (accepted : Accepts src tree) (named : Followed (·.type_ = .Symbol) (visible src))
    (kept : ∀ v ∈ visible src, v.Kept) (one : tree.Within Counted.one_value) :
    ∃ again, Accepts tree.format again ∧ again.erase = tree.erase := by
  obtain ⟨tree₀, same, printable, seen⟩ := accepted_prints accepted named kept one
  rw [← Root.format_erase same]
  have tokens := (similar_shows tree₀.format).root (tree₀.print.length + 2) _ _ (shows_init tree₀.format)
  rw [seen, format_parses printable _ (Nat.le_refl _)] at tokens
  obtain ⟨again, s, run, same₂, -⟩ := tokens.ok_right
  refine ⟨again, ⟨_, s, run⟩, same₂.trans (Eq.trans ?_ same)⟩
  exact congrArg (Root.mk .init .init) (Node.eraseBlock_erase tree₀.block_)

/-- The text of a tree is a source of it again, and trees of the same text differ at most in their locations. -/
theorem canonical (accepted : Accepts src tree) (named : Followed (·.type_ = .Symbol) (visible src))
    (kept : ∀ v ∈ visible src, v.Kept) (one : tree.Within Counted.one_value) (accepted' : Accepts src' tree')
    (named' : Followed (·.type_ = .Symbol) (visible src')) (kept' : ∀ v ∈ visible src', v.Kept)
    (one' : tree'.Within Counted.one_value) :
    (∃ again, Accepts tree.format again ∧ again.erase = tree.erase) ∧
      (tree'.format = tree.format ↔ tree'.erase = tree.erase) := by
  obtain ⟨tree₀, same, printable, seen⟩ := accepted_prints accepted named kept one
  obtain ⟨tree₁, same', printable', seen'⟩ := accepted_prints accepted' named' kept' one'
  refine ⟨format_again accepted named kept one, fun texts => ?_, Root.format_erase⟩
  have prints : tree₁.print = tree₀.print := by
    rw [← seen, ← seen', Root.format_erase same, Root.format_erase same', texts]
  have parsed := format_parses printable (tree₀.print.length + 2) (Nat.le_refl _)
  have parsed' := format_parses printable' (tree₁.print.length + 2) (Nat.le_refl _)
  rw [prints, parsed] at parsed'
  have trees : tree₀.erase = tree₁.erase := (Parse.ok.inj parsed').1
  exact same'.symm.trans (trees.symm.trans same)

theorem accepts_one (src : Bytes) (rounds : Nat)
    (h : (Root.parse rounds (TokenStream.init src)).value.any (·.Within Counted.one_value) = true) :
    ∃ tree, Accepts src tree ∧ tree.Within Counted.one_value := by
  obtain ⟨tree, accepted, one⟩ := accepts_test src rounds h
  exact ⟨tree, accepted, of_decide_eq_true one⟩

theorem kept_all {vs : List Value}
    (h : vs.all (fun v => v.type_ ≠ .Float ∧ (v.type_ = .Int → v.i_data_ ≤ int_max)) = true) :
    ∀ v ∈ vs, v.Kept := fun v member =>
  have found := of_decide_eq_true (List.all_eq_true.mp h v member)
  ⟨found.1, found.2⟩

theorem canonical_sample :
    ∃ tree tree', Accepts (bytes "func f()\x7breturn 007\x7d") tree ∧
      Accepts (bytes "func f ( )\x7b\n\n  return 007\n\x7d \n") tree' ∧
      (∃ again, Accepts tree.format again ∧ again.erase = tree.erase) ∧
      (tree'.format = tree.format ↔ tree'.erase = tree.erase) := by
  have seen : visible (bytes "func f()\x7breturn 007\x7d") =
      [.make .Func 4, .CreateSymbol 1 [102], .make .LParent 1, .make .RParent 1, .make .LBrace 1,
        .make .Return 6, .CreateInt 3 7, .make .RBrace 1, .make .Enf 0] := by decide +kernel
  have seen' : visible (bytes "func f ( )\x7b\n\n  return 007\n\x7d \n") =
      [.make .Func 4, .CreateSymbol 1 [102], .make .LParent 1, .make .RParent 1, .make .LBrace 1, .make .Enl 1,
        .make .Enl 1, .make .Return 6, .CreateInt 3 7, .make .Enl 1, .make .RBrace 1, .make .Enl 1,
        .make .Enf 0] := by decide +kernel
  obtain ⟨tree, accepted, one⟩ := accepts_one (bytes "func f()\x7breturn 007\x7d") 20 (by decide +kernel)
  obtain ⟨tree', accepted', one'⟩ :=
    accepts_one (bytes "func f ( )\x7b\n\n  return 007\n\x7d \n") 40 (by decide +kernel)
  refine ⟨tree, tree', accepted, accepted', canonical accepted ?_ ?_ one accepted' ?_ ?_ one'⟩
  · rw [seen]
    simp [Followed, Value.make, Value.CreateSymbol, Value.CreateInt]
  · rw [seen]
    exact kept_all rfl
  · rw [seen']
    simp [Followed, Value.make, Value.CreateSymbol, Value.CreateInt]
  · rw [seen']
    exact kept_all rfl

end Format

end Mygo
