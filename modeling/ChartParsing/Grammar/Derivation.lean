import ChartParsing.Grammar.Basic
import ChartParsing.Tree.Basic

/-!
# Derivations of a grammar

What a key derives is the least relation closed under the rules; a derivation tree shows how. The
flag of a rule plays no part.

## Main definitions

* `Grammar.Derives`: a key derives a list of input values.
* `Grammar.Yields`: a tree is a derivation of a list of input values.

## Main results

* `Grammar.derives_iff_exists_yields`: a key derives what the trees with that key yield.
* `Grammar.Yields.length_frontier`: a derivation has a leaf for every value.
-/

namespace ChartParsing

universe u v

namespace Grammar

variable {K : Type u} {V : Type v}

/-- The relation `g.Derives key values`: the rules of `g` lead from `key` to `values`. -/
inductive Derives (g : Grammar K V) : K → List V → Prop where
  /-- A terminal rule derives its output. -/
  | terminal {rule : TerminalRule K V} (mem : rule ∈ g.terminals) :
      Derives g rule.key [rule.output]
  /-- A binary rule derives what its left key derives followed by what its right key derives. -/
  | binary {rule : BinaryRule K} {front back : List V} (mem : rule ∈ g.binaries)
      (left : Derives g rule.left front) (right : Derives g rule.right back) :
      Derives g rule.key (front ++ back)

/-- The relation `g.Yields t values`: every step of `t` is by a rule of `g`, and its leaves stand
for `values`. -/
inductive Yields (g : Grammar K V) : Tree K → List V → Prop where
  /-- A leaf stands for the output of a terminal rule. -/
  | leaf {rule : TerminalRule K V} (mem : rule ∈ g.terminals) :
      Yields g (.leaf rule.key) [rule.output]
  /-- A node has two subtrees with the keys of a binary rule. -/
  | node {rule : BinaryRule K} {l r : Tree K} {front back : List V} (mem : rule ∈ g.binaries)
      (left : Yields g l front) (right : Yields g r back) (left_key : l.key = rule.left)
      (right_key : r.key = rule.right) :
      Yields g (.node rule.key [l, r]) (front ++ back)

variable {g : Grammar K V}

theorem Derives.ne_nil {key : K} {values : List V} (h : g.Derives key values) : values ≠ [] := by
  induction h with
  | terminal _ => simp
  | binary _ _ _ ihl _ => simp [ihl]

theorem Yields.derives {t : Tree K} {values : List V} (h : g.Yields t values) :
    g.Derives t.key values := by
  induction h with
  | leaf mem => exact .terminal mem
  | node mem _ _ hl hr ihl ihr => exact .binary mem (hl ▸ ihl) (hr ▸ ihr)

theorem Derives.exists_yields {key : K} {values : List V} (h : g.Derives key values) :
    ∃ t : Tree K, t.key = key ∧ g.Yields t values := by
  induction h with
  | terminal mem => exact ⟨_, rfl, .leaf mem⟩
  | binary mem _ _ ihl ihr =>
    obtain ⟨l, hl, hly⟩ := ihl
    obtain ⟨r, hr, hry⟩ := ihr
    exact ⟨_, rfl, .node mem hly hry hl hr⟩

/-- A key derives what the trees with that key yield. -/
theorem derives_iff_exists_yields {key : K} {values : List V} :
    g.Derives key values ↔ ∃ t : Tree K, t.key = key ∧ g.Yields t values :=
  ⟨Derives.exists_yields, fun ⟨_, hkey, h⟩ => hkey ▸ h.derives⟩

/-- A derivation has a leaf for every value. -/
theorem Yields.length_frontier {t : Tree K} {values : List V} (h : g.Yields t values) :
    t.frontier.length = values.length := by
  induction h with
  | leaf _ => rfl
  | node _ _ _ _ _ ihl ihr =>
    simp [Tree.frontier, Tree.frontierOfList, ihl, ihr]

end Grammar

end ChartParsing
