import Std.Data.TreeMap
import SymbolicLtl.Diagram.Basic
import SymbolicLtl.Word

/-!
Tables of decision nodes, in which each node refers to others by their index. Indexes 0 and 1 are
the constants, and their entries in a table are placeholders.
-/
namespace SymbolicLtl

/-- A test of a variable, with the indexes of the two outcomes. -/
structure TableNode where
  var : Int
  low : Int
  high : Int
deriving DecidableEq, Hashable, Repr

/-- A list of nodes, children before their parents, and the index of the root. -/
structure Table where
  nodes : List TableNode
  root : Int
deriving DecidableEq, Repr

namespace Table

def blank : Table := ⟨[], 0⟩

/-- The number of nodes among a number of entries, two of which are placeholders. -/
def sizeOf (entries : Nat) : Nat := entries - 2

def size (t : Table) : Nat := sizeOf t.nodes.length

def describeEntries (entries : Nat) (root : Int) : String :=
  let inner : Int := entries - 2
  s!"Diagram\x7bnodes: {inner}, root: {root}\x7d"

def describe (t : Table) : String := describeEntries t.nodes.length t.root

/-- A number of entries that fit into memory. -/
def checkEntries (entries : Int) : Except Misuse Nat :=
  match listLength? 24 entries with
  | some k => .ok k
  | none => .error .badIndex

def inner (t : Table) : List TableNode := t.nodes.drop 2

def placeholders : List TableNode := [⟨0, 0, 0⟩, ⟨0, 0, 0⟩]

/-- The number of a node, which is added at the end unless it is there already. -/
def insert (node : TableNode) (nodes : List TableNode) : Nat × List TableNode :=
  match nodes.idxOf? node with
  | some i => (i + 2, nodes)
  | none => (nodes.length + 2, nodes ++ [node])

/-- Gives numbers to the subtrees of a tree from the leaves to the root, the low one first, each once. -/
def number : Tree → List TableNode → Nat × List TableNode
  | .leaf false, nodes => (0, nodes)
  | .leaf true, nodes => (1, nodes)
  | .node v l h, nodes =>
    let (i, nodes) := number l nodes
    let (j, nodes) := number h nodes
    insert ⟨v, i, j⟩ nodes

theorem idxOf?_append_of_eq_some {nodes : List TableNode} {node : TableNode} {i : Nat}
    (h : nodes.idxOf? node = some i) (rest : List TableNode) :
    (nodes ++ rest).idxOf? node = some i := by
  rw [List.idxOf?, List.findIdx?_append, ← List.idxOf?, h]
  rfl

theorem isPrefix_insert (node : TableNode) (nodes : List TableNode) :
    nodes <+: (insert node nodes).2 := by
  unfold insert
  split
  · exact List.prefix_rfl
  · exact List.prefix_append _ _

theorem isPrefix_number (t : Tree) (nodes : List TableNode) : nodes <+: (number t nodes).2 := by
  induction t generalizing nodes with
  | leaf b => cases b <;> exact List.prefix_rfl
  | node v l h ihl ihh => exact (ihl _).trans ((ihh _).trans (isPrefix_insert _ _))

theorem insert_append {node : TableNode} {nodes : List TableNode} {i : Nat}
    (h : insert node nodes = (i, nodes)) (rest : List TableNode) :
    insert node (nodes ++ rest) = (i, nodes ++ rest) := by
  unfold insert at h
  split at h
  · next k hk =>
    obtain rfl := (Prod.mk.inj h).1
    rw [insert, idxOf?_append_of_eq_some hk]
  · simp at h

theorem number_append {t : Tree} {nodes : List TableNode} {i : Nat}
    (h : number t nodes = (i, nodes)) (rest : List TableNode) :
    number t (nodes ++ rest) = (i, nodes ++ rest) := by
  induction t generalizing i with
  | leaf b => cases b <;> simp_all [number]
  | node v l r ihl ihr =>
    obtain ⟨a, n₁, hl⟩ : ∃ a n₁, number l nodes = (a, n₁) := ⟨_, _, rfl⟩
    obtain ⟨b, n₂, hr⟩ : ∃ b n₂, number r n₁ = (b, n₂) := ⟨_, _, rfl⟩
    simp only [number, hl, hr] at h
    have p₁ : nodes <+: n₁ := by simpa [hl] using isPrefix_number l nodes
    have p₂ : n₁ <+: n₂ := by simpa [hr] using isPrefix_number r n₁
    have p₃ : n₂ <+: nodes := by simpa [h] using isPrefix_insert ⟨v, a, b⟩ n₂
    obtain rfl : n₁ = nodes := (p₂.trans p₃).eq_of_length_le p₁.length_le
    obtain rfl : n₂ = n₁ := p₃.eq_of_length_le p₂.length_le
    simp only [number, ihl hl, ihr hr, insert_append h]

/-- Numbering a tree again finds it. -/
theorem number_number {t : Tree} {nodes after : List TableNode} {i : Nat}
    (h : number t nodes = (i, after)) : number t after = (i, after) := by
  induction t generalizing nodes after i with
  | leaf b => cases b <;> simp_all [number]
  | node v l r ihl ihr =>
    obtain ⟨a, n₁, hl⟩ : ∃ a n₁, number l nodes = (a, n₁) := ⟨_, _, rfl⟩
    obtain ⟨b, n₂, hr⟩ : ∃ b n₂, number r n₁ = (b, n₂) := ⟨_, _, rfl⟩
    simp only [number, hl, hr] at h
    obtain ⟨s₁, e₁⟩ : n₁ <+: n₂ := by simpa [hr] using isPrefix_number r n₁
    obtain ⟨s₂, e₂⟩ : n₂ <+: after := by simpa [h] using isPrefix_insert ⟨v, a, b⟩ n₂
    have hl' : number l after = (a, after) := by
      rw [← e₂, ← e₁, List.append_assoc]
      exact number_append (ihl hl) _
    have hr' : number r after = (b, after) := by
      rw [← e₂]
      exact number_append (ihr hr) _
    simp only [number, hl', hr']
    unfold insert at h
    split at h
    · next k hk =>
      obtain ⟨rfl, rfl⟩ := Prod.mk.inj h
      rw [insert, hk]
    · next hk =>
      obtain ⟨rfl, rfl⟩ := Prod.mk.inj h
      rw [insert, List.idxOf?, List.findIdx?_append, ← List.idxOf?, hk]
      simp

/-- The nodes so far, where they stand, and where trees were found. -/
structure Numbering where
  nodes : Array TableNode
  indexes : Std.HashMap TableNode Nat
  found : Std.HashMap Tree Nat
  indexes_eq : ∀ node, indexes[node]? = nodes.toList.idxOf? node
  found_eq : ∀ t i, found[t]? = some i → number t nodes.toList = (i, nodes.toList)

namespace Numbering

def empty : Numbering := ⟨#[], ∅, ∅, by simp, by simp⟩

def add (node : TableNode) (s : Numbering) :
    { r : Nat × Numbering // (r.1, r.2.nodes.toList) = insert node s.nodes.toList } :=
  match h : s.indexes[node]? with
  | some i => ⟨(i + 2, s), by rw [s.indexes_eq] at h; rw [insert, h]⟩
  | none =>
    have h' : s.nodes.toList.idxOf? node = none := by rw [← s.indexes_eq, h]
    ⟨(s.nodes.size + 2,
      { nodes := s.nodes.push node
        indexes := s.indexes.insert node s.nodes.size
        found := s.found
        indexes_eq := by
          intro m
          rw [Std.HashMap.getElem?_insert, Array.toList_push, List.idxOf?, List.findIdx?_append,
            ← List.idxOf?, s.indexes_eq]
          split
          · next e =>
            rw [beq_iff_eq] at e
            subst e
            simp [h']
          · next e => simp [e]
        found_eq := by
          intro t i ht
          rw [Array.toList_push]
          exact number_append (s.found_eq t i ht) _ }), by simp [insert, h']⟩

def record (t : Tree) (i : Nat) (s : Numbering)
    (h : number t s.nodes.toList = (i, s.nodes.toList)) : Numbering :=
  { s with
    found := s.found.insert t i
    found_eq := by
      intro u j hu
      rw [Std.HashMap.getElem?_insert] at hu
      split at hu
      · next e =>
        rw [beq_iff_eq] at e
        subst e
        rw [← Option.some.inj hu]
        exact h
      · exact s.found_eq u j hu }

def number (t : Tree) (s : Numbering) :
    { r : Nat × Numbering // (r.1, r.2.nodes.toList) = Table.number t s.nodes.toList } :=
  match ht : t with
  | .leaf false => ⟨(0, s), rfl⟩
  | .leaf true => ⟨(1, s), rfl⟩
  | .node v l h =>
    match hs : s.found[t]? with
    | some i => ⟨(i, s), by rw [← ht, s.found_eq t i hs]⟩
    | none =>
      let ⟨(i, s₁), h₁⟩ := number l s
      let ⟨(j, s₂), h₂⟩ := number h s₁
      let ⟨(k, s₃), h₃⟩ := s₂.add ⟨v, i, j⟩
      have e : (k, s₃.nodes.toList) = Table.number t s.nodes.toList := by
        rw [ht, Table.number, ← h₁]
        simp only [← h₂]
        exact h₃
      ⟨(k, s₃.record t k (number_number e.symm)), by rw [← ht]; exact e⟩

end Numbering

def numbered (t : Tree) : Exactly (number t []) :=
  if Tree.areLight t t then ⟨number t [], rfl⟩
  else
    let ⟨(i, s), h⟩ := Numbering.empty.number t
    ⟨(i, s.nodes.toList), h⟩

/-- A node with its number. The outcomes are given by their numbers; those of the constants are 0
and 1. -/
structure RawNode where
  id : Int
  level : Int
  low : Int
  high : Int
deriving DecidableEq, Repr

def rawNodes (nodes : List TableNode) : List RawNode :=
  nodes.zipIdx.map fun (x, k) => ⟨k + 2, x.var, x.low, x.high⟩

/-- The entries of a table so far, and the index of every number that has one. -/
structure Entries where
  index : Std.TreeMap Int Nat
  nodes : Array TableNode

namespace Entries

def constants : Entries :=
  ⟨((∅ : Std.TreeMap Int Nat).insert 0 0).insert 1 1, placeholders.toArray⟩

/-- Adds a node at the end. The index of an outcome without an entry is 0. -/
def add (e : Entries) (r : RawNode) : Entries :=
  let index := e.index.insert r.id e.nodes.size
  ⟨index, e.nodes.push ⟨r.level, index.getD r.low 0, index.getD r.high 0⟩⟩

end Entries

def ofSorted (nodes : List RawNode) (root : Int) : Table :=
  let entries := nodes.foldl Entries.add .constants
  ⟨entries.nodes.toList, entries.index.getD root 0⟩

/-- The table of a function. Nodes with a larger variable come first, so that outcomes come before the
nodes they belong to. -/
def ofDiagram {n : Nat} (d : Diagram n) : Table :=
  let (root, nodes) := (numbered d.tree).val
  ofSorted ((rawNodes nodes).mergeSort fun a b => b.level ≤ a.level) root

def isOrdered (t : Table) : Bool :=
  t.nodes.zipIdx.all fun (node, i) => i < 2 || (node.low < i && node.high < i)

/-- The variable of a node and the functions of its outcomes, which are among those before it. -/
def outcomes {n : Nat} (built : Array (Diagram n)) (node : TableNode) :
    Except Misuse (Fin n × Diagram n × Diagram n) := do
  let v ← Diagram.checkVar n node.var
  if node.low ≥ built.size ∨ node.high ≥ built.size then throw (.laterNode built.size)
  if node.low < 0 ∨ node.high < 0 then throw .badIndex
  match built[node.low.toNat]?, built[node.high.toNat]? with
  | some low, some high => return (v, low, high)
  | _, _ => throw .badIndex

def buildNode {n : Nat} (built : Array (Diagram n)) (node : TableNode) :
    Except Misuse (Diagram n) := do
  let (v, low, high) ← outcomes built node
  return Diagram.select v low high

/-- The functions of all entries. The trees of those before are objects of the cache. -/
def buildAll {n : Nat} (c : Tree.Cache) (built : Array (Diagram n)) :
    List TableNode → Except Misuse (Array (Diagram n))
  | [] => .ok built
  | node :: nodes => do
    let (v, low, high) ← outcomes built node
    let (y, c) := c.select v low.tree high.tree
    buildAll c (built.push (.ofTree y (Diagram.reduced_select v low high))) nodes

theorem buildAll_eq {n : Nat} (c : Tree.Cache) (built : Array (Diagram n))
    (nodes : List TableNode) : buildAll c built nodes =
      nodes.foldlM (fun built node => return built.push (← buildNode built node)) built := by
  induction nodes generalizing c built with
  | nil => rfl
  | cons node nodes ih =>
    rw [buildAll, List.foldlM_cons, buildNode]
    cases outcomes built node with
    | error e => rfl
    | ok p =>
      obtain ⟨v, low, high⟩ := p
      have e : ∀ h, Diagram.ofTree (c.select v low.tree high.tree).1 h =
          Diagram.select v low high := fun h =>
        Diagram.ext fun ρ => by
          rw [Diagram.eval, Diagram.tree_ofTree, Diagram.eval, Diagram.tree_select]
      simp only [bind, Except.bind, pure, Except.pure, e, ih]

/-- The function of a table. All nodes are read, also those that the root does not need. -/
def toDiagram (n : Nat) (t : Table) : Except Misuse (Diagram n) :=
  if t.root = 0 then return .const false
  else if t.root = 1 then return .const true
  else if t.nodes.length < 2 then throw .badIndex
  else do
    let built ← buildAll (.ofObjects .empty) #[.const false, .const true] t.inner
    if t.root < 0 then throw .badIndex
    match built[t.root.toNat]? with
    | some d => return d
    | none => throw .badIndex

end Table

/-- Carries a function over to `m` variables. It is refused with its largest variable when that is
not one of them. -/
def Diagram.translocate {n : Nat} (m : Nat) (d : Diagram n) : Except Misuse (Diagram m) :=
  match d.support.getLast? with
  | some v => if v < m then (Table.ofDiagram d).toDiagram m else throw (.variableOutOfRange v m)
  | none => (Table.ofDiagram d).toDiagram m

end SymbolicLtl
