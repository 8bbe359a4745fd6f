import Vouch.Lang.Command

/-!
# Flow Graphs

The control flow of a body: its commands are the nodes, numbered from zero, and an edge
leads to each command that may come next. A jump leads to its targets in the order it
lists them. Any other command leads to the next one, and the last command to nothing.

## Main definitions

* `FlowGraph`: Nodes with ordered successors and an entry.
* `FlowGraph.ofEdges`: The graph of a list of edges.
* `FlowGraph.ofBody`: The graph of a body.

## Theorems

* `FlowGraph.lt_size_of_mem_successors`: Edges lead to nodes that exist.
* `FlowGraph.nodup_successors`: No edge is there twice.
-/

namespace Vouch

/-- Nodes with ordered successors and an entry. -/
structure FlowGraph where
  /-- The successors of each node. -/
  succ : Array (List Nat)
  /-- Where execution begins. -/
  entry : Option Nat
  /-- Edges lead to nodes. -/
  inRange : ∀ out ∈ succ, ∀ v ∈ out, v < succ.size
  /-- No edge is there twice. -/
  nodup : ∀ out ∈ succ, out.Nodup

namespace FlowGraph

/-- The number of nodes. -/
def size (g : FlowGraph) : Nat :=
  g.succ.size

/-- The nodes in increasing order. -/
def nodes (g : FlowGraph) : List Nat :=
  List.range g.size

/-- The successors of a node. -/
def successors (g : FlowGraph) (v : Nat) : List Nat :=
  g.succ.getD v []

/-- The predecessors of a node, in increasing order. -/
def predecessors (g : FlowGraph) (v : Nat) : List Nat :=
  g.nodes.filter fun u => (g.successors u).contains v

/-- The predecessors of every node. -/
def predecessorTable (g : FlowGraph) : Array (List Nat) :=
  (g.nodes.map g.predecessors).toArray

/-- The number of edges. -/
def edgeCount (g : FlowGraph) : Nat :=
  g.succ.foldl (fun count out => count + out.length) 0

/-- Add a target at the end, unless it is there. -/
def addTarget (out : List Nat) (v : Nat) : List Nat :=
  if v ∈ out then out else out ++ [v]

theorem mem_addTarget {out : List Nat} {v w : Nat} :
    w ∈ addTarget out v ↔ w ∈ out ∨ w = v := by
  unfold addTarget
  split
  · next h =>
    refine ⟨Or.inl, fun hw => ?_⟩
    rcases hw with hw | rfl
    · exact hw
    · exact h
  · simp

theorem nodup_addTarget {out : List Nat} {v : Nat} (h : out.Nodup) : (addTarget out v).Nodup := by
  unfold addTarget
  split
  · exact h
  · next hv =>
    refine List.nodup_append.2 ⟨h, by simp, fun a ha b hb => ?_⟩
    rw [List.mem_singleton.1 hb]
    exact fun hab => hv (hab ▸ ha)

/-- The targets of edges in the order they were first mentioned. -/
def targets (vs : List Nat) : List Nat :=
  vs.foldl addTarget []

theorem mem_foldl_addTarget {vs out : List Nat} {w : Nat} :
    w ∈ vs.foldl addTarget out ↔ w ∈ out ∨ w ∈ vs := by
  induction vs generalizing out with
  | nil => simp
  | cons v vs ih =>
    rw [List.foldl_cons, ih, mem_addTarget, List.mem_cons, or_assoc]

@[simp]
theorem mem_targets {vs : List Nat} {w : Nat} : w ∈ targets vs ↔ w ∈ vs := by
  simp [targets, mem_foldl_addTarget]

theorem nodup_targets (vs : List Nat) : (targets vs).Nodup := by
  have key : ∀ (vs out : List Nat), out.Nodup → (vs.foldl addTarget out).Nodup := by
    intro vs
    induction vs with
    | nil => exact fun _ h => h
    | cons v vs ih => exact fun out h => ih _ (nodup_addTarget h)
  exact key vs [] List.nodup_nil

/-- The graph of a list of edges. Edges from or to nodes that do not exist are
    dropped. -/
def ofEdges (size : Nat) (entry : Option Nat) (edges : List (Nat × Nat)) : FlowGraph where
  succ := ((List.range size).map fun u =>
    targets ((edges.filter fun e => e.1 = u ∧ e.2 < size).map (·.2))).toArray
  entry := entry
  inRange := by
    intro out hout v hv
    obtain ⟨u, -, rfl⟩ := List.mem_map.1 (List.mem_toArray.1 hout)
    obtain ⟨e, he, rfl⟩ := List.mem_map.1 (mem_targets.1 hv)
    have h := (List.mem_filter.1 he).2
    simp only [decide_eq_true_eq] at h
    simpa using h.2
  nodup := by
    intro out hout
    obtain ⟨u, -, rfl⟩ := List.mem_map.1 (List.mem_toArray.1 hout)
    exact nodup_targets _

/-- The entry of a graph that begins with its first node. -/
def firstEntry (size : Nat) : Option Nat :=
  if size = 0 then none else some 0

/-- A node that does not exist has no successors, and the successors of the
    others are listed. -/
theorem successors_cases (g : FlowGraph) (u : Nat) :
    g.successors u = [] ∨ g.successors u ∈ g.succ := by
  by_cases hlt : u < g.succ.size
  · exact Or.inr (by simp [successors, hlt])
  · exact Or.inl (by simp [successors, hlt])

theorem lt_size_of_mem_successors {g : FlowGraph} {u v : Nat} (hv : v ∈ g.successors u) :
    v < g.size := by
  rcases g.successors_cases u with h | h
  · rw [h] at hv
    exact absurd hv (by simp)
  · exact g.inRange _ h v hv

theorem nodup_successors (g : FlowGraph) (u : Nat) : (g.successors u).Nodup := by
  rcases g.successors_cases u with h | h
  · rw [h]
    exact List.nodup_nil
  · exact g.nodup _ h

/-- Keep some of the edges. -/
def filterEdges (g : FlowGraph) (keep : Nat → Nat → Bool) : FlowGraph where
  succ := (g.nodes.map fun u => (g.successors u).filter (keep u)).toArray
  entry := g.entry
  inRange := by
    intro out hout v hv
    obtain ⟨u, -, rfl⟩ := List.mem_map.1 (List.mem_toArray.1 hout)
    rw [List.size_toArray, List.length_map, nodes, List.length_range]
    exact lt_size_of_mem_successors (List.mem_filter.1 hv).1
  nodup := by
    intro out hout
    obtain ⟨u, -, rfl⟩ := List.mem_map.1 (List.mem_toArray.1 hout)
    exact List.Pairwise.filter _ (g.nodup_successors u)

end FlowGraph

/-- Why a body has no flow graph. -/
inductive FlowError where
  | missingLabel (label : String) (node : Nat)
  | duplicateLabel (label : String)
deriving DecidableEq

namespace FlowError

/-- What is wrong with the body. -/
def message : FlowError → String
  | missingLabel label node =>
    "goto at command " ++ toString node ++ " targets undefined label `" ++ label ++ "`"
  | duplicateLabel label => "label `" ++ label ++ "` is defined more than once"

end FlowError

namespace Body

/-- Every label with the command it stands at, in order. -/
def labelled (body : Body) : List (String × Nat) :=
  body.zipIdx.flatMap fun (c, node) => c.labels.map (·, node)

/-- The commands that labels stand at. No label may stand at two places. -/
def labelTable (body : Body) : Except FlowError (NameMap Nat) :=
  body.labelled.foldlM (fun table (label, node) =>
    if table.contains label then throw (.duplicateLabel label)
    else return table.insert label node) ∅

/-- The edges out of a command. -/
def edgesFrom (size : Nat) (labels : NameMap Nat) (c : Command) (node : Nat) :
    Except FlowError (List (Nat × Nat)) :=
  match c.action with
  | .goto names => names.mapM fun label =>
    match labels.find? label with
    | some target => return (node, target)
    | none => throw (.missingLabel label node)
  | _ => return if node + 1 < size then [(node, node + 1)] else []

end Body

namespace FlowGraph

/-- The graph of a body. -/
def ofBody (body : Body) : Except FlowError FlowGraph := do
  let labels ← body.labelTable
  let edges ← body.zipIdx.mapM fun (c, node) => Body.edgesFrom body.length labels c node
  return ofEdges body.length (firstEntry body.length) edges.flatten

end FlowGraph

end Vouch
