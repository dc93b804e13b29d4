import RecordGraph.Path.Basic
import RecordGraph.Proofs.WellFormed

/-!
# Descent along joins

A list of joins leads from a node to at most one other node, and in a tree no
two lists lead to the same one. What a list leads to stays as the graph grows.
-/
namespace RecordGraph

/-- The joins of a path, those of each foreign key before its table, and the column. -/
def ColumnPath.flatten (p : ColumnPath) : List Hop × String :=
  (p.tables.flatMap TableSpec.hops, p.target)

theorem ColumnPath.flatten_eq (p : ColumnPath) : p.flatten = (p.hops, p.target) := by
  suffices h : p.tables.flatMap TableSpec.hops = p.hops by rw [flatten, h]
  induction p with
  | column name => rfl
  | through table rest ih => simp [tables, hops, ih, TableSpec.hops, TableSpec.foreignKey,
      TableSpec.childColumn, target]
  | joined table child fk rest _ ih => simp [tables, hops, ih, TableSpec.hops,
      TableSpec.foreignKey, TableSpec.childColumn]

namespace Graph

section
variable (g : Graph)

/-- The node that joins lead to. -/
def descend (n : NodeId) : List Hop → Option NodeId
  | [] => some n
  | h :: hops => (g.findChild? n h).bind fun m => descend m hops

/-- The registered column behind joins. -/
def locate (n : NodeId) (p : List Hop × String) : Option ColumnId :=
  (g.descend n p.1).bind fun m => g.findColumn? m p.2

end

section
variable {g g' : Graph} {n m k : NodeId} {hops hops' : List Hop} {c d : ColumnId}

theorem descend_append :
    g.descend n (hops ++ hops') = (g.descend n hops).bind (g.descend · hops') := by
  induction hops generalizing n with
  | nil => rfl
  | cons h hops ih =>
    rw [List.cons_append, descend, descend, Option.bind_assoc]
    simp only [ih]

theorem descend_concat {h : Hop} :
    g.descend n (hops ++ [h]) = (g.descend n hops).bind (g.findChild? · h) := by
  rw [descend_append]
  congr 1
  funext m
  rw [descend]
  cases g.findChild? m h <;> rfl

theorem locate_eq_some {p : List Hop × String} :
    g.locate n p = some c ↔ ∃ m, g.descend n p.1 = some m ∧ g.findColumn? m p.2 = some c :=
  Option.bind_eq_some_iff

namespace WellFormed

/-- Each join leads to a node that was registered later. -/
theorem descend_le (hg : g.WellFormed) (hm : g.descend n hops = some m) :
    n.index + hops.length ≤ m.index := by
  induction hops generalizing n with
  | nil =>
    obtain rfl := Option.some.inj hm
    simp
  | cons h hops ih =>
    obtain ⟨k, hk, hkm⟩ := Option.bind_eq_some_iff.1 hm
    obtain ⟨x, hx, -, rfl⟩ := hg.findChild?_mem hk
    obtain ⟨-, -, -, -, -, hlt⟩ := hg.edge_of_mem hx
    have hle := ih hkm
    simp only [List.length_cons]
    omega

theorem isNode_of_findChild? {h : Hop} (hg : g.WellFormed) (hm : g.findChild? n h = some m) :
    g.IsNode m := by
  obtain ⟨x, hx, -, rfl⟩ := hg.findChild?_mem hm
  obtain ⟨-, -, -, -, hchild, -⟩ := hg.edge_of_mem hx
  exact hchild

theorem isNode_of_descend (hg : g.WellFormed) (hn : g.IsNode n)
    (hm : g.descend n hops = some m) : g.IsNode m := by
  induction hops generalizing n with
  | nil => exact Option.some.inj hm ▸ hn
  | cons h hops ih =>
    obtain ⟨k, hk, hkm⟩ := Option.bind_eq_some_iff.1 hm
    exact ih (hg.isNode_of_findChild? hk) hkm

/-- In a tree a node is reached in one way only. -/
theorem descend_inj (hg : g.WellFormed) (h : g.descend n hops = some m)
    (h' : g.descend n hops' = some m) : hops = hops' := by
  induction hops using List.reverseRecOn generalizing m hops' with
  | nil =>
    have hle := hg.descend_le h'
    obtain rfl := Option.some.inj h
    exact (List.length_eq_zero_iff.1 (by omega)).symm
  | append_singleton hops j ih =>
    rcases List.eq_nil_or_concat hops' with rfl | ⟨hops', j', rfl⟩
    · have hle := hg.descend_le h
      obtain rfl := Option.some.inj h'
      simp only [List.length_append, List.length_cons] at hle
      omega
    · rw [List.concat_eq_append, descend_concat] at h'
      rw [descend_concat] at h
      obtain ⟨p, hp, hpm⟩ := Option.bind_eq_some_iff.1 h
      obtain ⟨p', hp', hpm'⟩ := Option.bind_eq_some_iff.1 h'
      obtain ⟨x, hx, rfl, rfl⟩ := hg.findChild?_mem hpm
      obtain ⟨y, hy, rfl, hxy⟩ := hg.findChild?_mem hpm'
      obtain ⟨e, he, rfl, -⟩ := hg.edge_of_mem hx
      obtain ⟨f, hf, rfl, -⟩ := hg.edge_of_mem hy
      obtain rfl := hg.children he hf hxy.symm
      obtain rfl := Option.some.inj (he.symm.trans hf)
      rw [ih hp hp', List.concat_eq_append]

/-- A column is reached in one way only. -/
theorem locate_inj {p q : List Hop × String} (hg : g.WellFormed) (hp : g.locate n p = some c)
    (hq : g.locate n q = some c) : p = q := by
  obtain ⟨m, hm, hc⟩ := locate_eq_some.1 hp
  obtain ⟨m', hm', hc'⟩ := locate_eq_some.1 hq
  obtain ⟨hmem, hname⟩ := hg.findColumn?_mem hc
  obtain ⟨hmem', hname'⟩ := hg.findColumn?_mem hc'
  obtain rfl := Option.some.inj ((hg.column hmem).1.symm.trans (hg.column hmem').1)
  exact Prod.ext (hg.descend_inj hm hm') (hname.symm.trans hname')

end WellFormed

namespace Grows

theorem mem_edgesOf (hgrow : Grows g g') {x : Edge} (hx : x ∈ g.edgesOf n) :
    x ∈ g'.edgesOf n := by
  obtain ⟨e, he, hex⟩ := Graph.mem_edgesOf.1 hx
  exact Graph.mem_edgesOf.2 ⟨e, (hgrow.edges n).subset he, hgrow.edge hex⟩

theorem findChild? (hg : g.WellFormed) (hg' : g'.WellFormed) (hgrow : Grows g g') {h : Hop}
    (hm : g.findChild? n h = some m) : g'.findChild? n h = some m := by
  obtain ⟨x, hx, rfl, rfl⟩ := hg.findChild?_mem hm
  obtain ⟨e, he, rfl, -⟩ := hg.edge_of_mem hx
  rw [← hgrow.hop hg he]
  exact hg'.findChild?_eq (hg'.mem_edgesOf_parent (hgrow.edge he))

theorem findColumn? (hg : g.WellFormed) (hg' : g'.WellFormed) (hgrow : Grows g g') {name : String}
    (hc : g.findColumn? n name = some c) : g'.findColumn? n name = some c := by
  obtain ⟨hmem, rfl⟩ := hg.findColumn?_mem hc
  rw [← (hgrow.column (hg.column hmem).1).2]
  exact hg'.findColumn?_eq ((hgrow.columns n).subset hmem)

theorem descend (hg : g.WellFormed) (hg' : g'.WellFormed) (hgrow : Grows g g')
    (hm : g.descend n hops = some m) : g'.descend n hops = some m := by
  induction hops generalizing n with
  | nil => exact hm
  | cons h hops ih =>
    obtain ⟨k, hk, hkm⟩ := Option.bind_eq_some_iff.1 hm
    rw [Graph.descend, hgrow.findChild? hg hg' hk]
    exact ih hkm

theorem locate {p : List Hop × String} (hg : g.WellFormed) (hg' : g'.WellFormed)
    (hgrow : Grows g g') (hc : g.locate n p = some c) : g'.locate n p = some c := by
  obtain ⟨m, hm, hc⟩ := locate_eq_some.1 hc
  exact locate_eq_some.2 ⟨m, hgrow.descend hg hg' hm, hgrow.findColumn? hg hg' hc⟩

end Grows
end
end Graph
end RecordGraph
