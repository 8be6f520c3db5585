import Mygo.Parser.Blanks
import Mygo.Parser.Choices

namespace Mygo

open Lexer TokenStream

def kinds (src : Bytes) : List TokenType := (visible src).map Value.type_

def Sees (src : Bytes) (s : TokenStream) (ts : List TokenType) : Prop :=
  ∃ t : Tokens, Shows src s t ∧ t.rest.map Value.type_ = ts

theorem views_sees (src : Bytes) : Predict.Views (Sees src) where
  blank := by
    rintro s ⟨t, shows_, none⟩
    have empty : t.rest = [] := List.map_eq_nil_iff.mp none
    constructor
    · rcases shows_.peeks with ⟨nothing, -⟩ | ⟨v, w, s', t', -, look, -⟩
      · exact nothing
      · rw [Tokens.Peek, empty] at look
        cases look
    · rcases shows_.nexts with ⟨nothing, -⟩ | ⟨s', t', -, move, -⟩
      · exact nothing
      · rw [Tokens.Next, empty] at move
        cases move
  sees := by
    rintro s T ts ⟨⟨rest⟩, shows_, same⟩
    obtain ⟨w, ws, rfl, rfl, rfl⟩ := List.map_eq_cons_iff.mp same
    rcases shows_.peeks with ⟨-, nothing⟩ | ⟨v, _, s', _, look, look', alike, shows_'⟩
    · cases nothing
    · cases look'
      exact ⟨v, s', look, alike.type, _, shows_', rfl⟩
  moves := by
    rintro s T ts ⟨⟨rest⟩, shows_, same⟩ last more
    obtain ⟨w, ws, rfl, rfl, rfl⟩ := List.map_eq_cons_iff.mp same
    have some_ : ws ≠ [] := fun none => more (by rw [none]; rfl)
    have move : Tokens.Next ⟨w :: ws⟩ = some ⟨ws⟩ := (if_neg last).trans (if_neg some_)
    rcases shows_.nexts with ⟨-, nothing⟩ | ⟨s', _, move', moved, shows_'⟩
    · cases nothing.symm.trans move
    · cases moved.symm.trans move
      exact ⟨s', move', _, shows_', rfl⟩
  ends := by
    rintro s T ⟨⟨rest⟩, shows_, same⟩ last
    obtain ⟨w, ws, rfl, rfl, none⟩ := List.map_eq_cons_iff.mp same
    obtain rfl := List.map_eq_nil_iff.mp none
    rcases shows_.nexts with ⟨nothing, -⟩ | ⟨_, _, -, moved, -⟩
    · exact nothing
    · have stuck : Tokens.Next ⟨[w]⟩ = Option.none := (if_neg last).trans (if_pos rfl)
      cases moved.symm.trans stuck
  stays := by
    rintro s ts ⟨⟨rest⟩, shows_, same⟩
    obtain ⟨w, ws, rfl, last, rfl⟩ := List.map_eq_cons_iff.mp same
    have stay : Tokens.Next ⟨w :: ws⟩ = some ⟨w :: ws⟩ := if_pos last
    rcases shows_.nexts with ⟨-, nothing⟩ | ⟨s', _, move, moved, shows_'⟩
    · cases nothing.symm.trans stay
    · cases moved.symm.trans stay
      exact ⟨s', move, _, shows_', same⟩
  loads := by
    rintro s ts t us ⟨t₁, shows_, same⟩ ⟨t₂, shows_', -⟩
    exact ⟨_, (similar_shows src).loads _ _ _ _ shows_' shows_, same⟩

theorem root_ends (src : Bytes) (more : Nat) :
    Root.parse (src.length + 2 + more) (TokenStream.init src) ≠ .out_of_fuel := by
  intro ends
  have enough : src.length + 1 ≤ src.length + 2 + more - 1 := by omega
  have left := (counts_measure src).descends_root enough (TokenStream.init src) ⟨coherent_init src, rfl⟩
    (Nat.zero_le _)
  rw [ends] at left
  have bound : src.length + 1 ≤ src.length - 0 := left
  omega

theorem arrives_root (src : Bytes) (more : Nat) :
    (Root.parse (src.length + 2 + more) (TokenStream.init src)).Arrives (Sees src) .sharp
      (Predict.root (src.length + 2 + more) (kinds src)) :=
  (views_sees src).parse_root _ _ _ ⟨_, shows_init src, rfl⟩

/-- The parse functions come to what one reading of the types of the tokens tells, without going back: they
accept where it fits, fail where it does not, and crash where it asks for a token behind the last one that is
recognised or goes beyond a bound. -/
theorem predicted (src : Bytes) (more : Nat) :
    let rounds := src.length + 2 + more
    ((∃ tree s, Root.parse rounds (TokenStream.init src) = .ok tree s) ↔
      ∃ rest, Predict.root rounds (kinds src) = .done rest) ∧
    ((∃ e s, Root.parse rounds (TokenStream.init src) = .err e s) ↔ Predict.root rounds (kinds src) = .stop) ∧
    (Root.parse rounds (TokenStream.init src) = .abort ↔ Predict.root rounds (kinds src) = .overrun) :=
  (arrives_root src more).tells (root_ends src more)

/-- A parse ends with a result exactly where the reading of the types does not ask for a token that is not
recognised, or for more than a bound. -/
theorem results_iff (src : Bytes) (more : Nat) :
    ((∃ tree s, Root.parse (src.length + 2 + more) (TokenStream.init src) = .ok tree s) ∨
      ∃ e s, Root.parse (src.length + 2 + more) (TokenStream.init src) = .err e s) ↔
    Predict.root (src.length + 2 + more) (kinds src) ≠ .overrun := by
  obtain ⟨-, -, crashes⟩ := (arrives_root src more).tells (root_ends src more)
  rw [ne_eq, ← crashes]
  have ends := root_ends src more
  cases run : Root.parse (src.length + 2 + more) (TokenStream.init src) with
  | ok tree s => exact iff_of_true (.inl ⟨tree, s, rfl⟩) nofun
  | err e s => exact iff_of_true (.inr ⟨e, s, rfl⟩) nofun
  | abort => exact iff_of_false (by simp) (not_not.mpr rfl)
  | out_of_fuel => exact absurd run ends

/-- The first `Peek` finds no token and reads the empty optional. -/
theorem dollar_crashes :
    ¬ ((∃ tree s, Root.parse 3 (TokenStream.init (bytes "$")) = .ok tree s) ∨
      ∃ e s, Root.parse 3 (TokenStream.init (bytes "$")) = .err e s) := by
  have crash : Root.parse 3 (TokenStream.init (bytes "$")) = .abort := rfl
  simp [crash]

end Mygo
