import Mathlib.Tactic

universe u

inductive SpanTree (α : Type u)
  | node (start end_ : α) (children : List (SpanTree α))

namespace SpanTree

variable {α : Type u}

def start : SpanTree α → α
  | .node start _ _ => start

def end_ : SpanTree α → α
  | .node _ end_ _ => end_

/-- Every node ends behind its start and around its children, which follow each other without overlap. -/
inductive Nested [Preorder α] : SpanTree α → Prop
  | node {start end_ : α} {children : List (SpanTree α)} : start ≤ end_ →
    (∀ c ∈ children, start ≤ c.start ∧ c.end_ ≤ end_) → children.IsChain (fun a b => a.end_ ≤ b.start) →
    (∀ c ∈ children, c.Nested) → (SpanTree.node start end_ children).Nested

variable [Preorder α] {low mid high : α} {c : SpanTree α} {cs ds : List (SpanTree α)}

def Row (low high : α) : List (SpanTree α) → Prop
  | [] => low ≤ high
  | c :: cs => low ≤ c.start ∧ c.start ≤ c.end_ ∧ Row c.end_ high cs

theorem Row.le (h : Row low high cs) : low ≤ high := by
  induction cs generalizing low with
  | nil => exact h
  | cons c cs ih =>
    obtain ⟨first, whole, rest⟩ := h
    exact first.trans (whole.trans (ih rest))

theorem Row.before (h : Row mid high cs) (le : low ≤ mid) : Row low high cs := by
  cases cs with
  | nil => exact le.trans h
  | cons c cs => exact ⟨le.trans h.1, h.2⟩

theorem Row.append (h : Row low mid cs) (h' : Row mid high ds) : Row low high (cs ++ ds) := by
  induction cs generalizing low with
  | nil => exact h'.before h
  | cons c cs ih => exact ⟨h.1, h.2.1, ih h.2.2⟩

theorem Row.node (h : Row low high cs) : Row low high [.node low high cs] :=
  ⟨le_refl low, h.le, le_refl high⟩

theorem Row.inside (h : Row low high cs) : ∀ c ∈ cs, low ≤ c.start ∧ c.end_ ≤ high := by
  induction cs generalizing low with
  | nil => exact nofun
  | cons c cs ih =>
    obtain ⟨first, whole, rest⟩ := h
    refine List.forall_mem_cons.mpr ⟨⟨first, rest.le⟩, fun d member => ?_⟩
    obtain ⟨after, until_⟩ := ih rest d member
    exact ⟨first.trans (whole.trans after), until_⟩

theorem Row.chain (h : Row low high cs) : cs.IsChain fun a b => a.end_ ≤ b.start := by
  induction cs generalizing low with
  | nil => exact .nil
  | cons c cs ih =>
    obtain ⟨-, -, rest⟩ := h
    cases cs with
    | nil => exact .singleton c
    | cons d cs => exact .cons_cons rest.1 (ih rest)

theorem Row.nested_iff (h : Row low high cs) : (SpanTree.node low high cs).Nested ↔ ∀ c ∈ cs, c.Nested := by
  constructor
  · rintro (⟨-, -, -, all⟩)
    exact all
  · exact fun all => .node h.le h.inside h.chain all

end SpanTree
