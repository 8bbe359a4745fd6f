import Vouch.Proofs.Names.Renumbering
import Vouch.Proofs.Term.Attached

/-!
# Relabelled Terms

The same computation started with another supply makes another term of the same shape. A
relabelling says which identity goes to which and which name to which.

## Main definitions

* `Relabelling`: New identities, and new numbers for generated names.
* `Term.relabel`: A term with all nodes relabelled.

## Theorems

* `Term.freeVars_relabel`: The free names of a relabelled term.
* `Term.items_collectAxioms_relabel`: The axioms of one.
-/

namespace Vouch

open List

/-- New identities for nodes, and new numbers for generated names. -/
structure Relabelling extends Renumbering where
  /-- The new identity of a node. -/
  node : NodeId → NodeId
  node_injective : Function.Injective node

/-- Leave everything as it is. -/
def Relabelling.same : Relabelling where
  name := id
  injective := Function.injective_id
  renumbers := .refl
  renamed _ _ := rfl
  node := id
  node_injective := Function.injective_id

variable {φ : Relabelling}

/-- The literal with its name relabelled. -/
def Literal.relabel (φ : Relabelling) : Literal → Literal
  | .name n => .name (φ.name n)
  | .int k => .int k
  | .bool b => .bool b

/-- The head with its name relabelled. -/
def Head.relabel (φ : Relabelling) (h : Head) : Head :=
  { h with payload := h.payload.map (Literal.relabel φ) }

namespace Term

mutual

/-- The term with all nodes relabelled. -/
def relabel (φ : Relabelling) : Term → Term
  | node id h cs as => node (φ.node id) (h.relabel φ) (relabelAll φ cs) (relabelAll φ as)

/-- The terms with all nodes relabelled. -/
def relabelAll (φ : Relabelling) : List Term → List Term
  | [] => []
  | t :: ts => relabel φ t :: relabelAll φ ts

end

theorem relabelAll_eq_map (φ : Relabelling) : ∀ ts : List Term,
    relabelAll φ ts = ts.map (relabel φ)
  | [] => rfl
  | t :: ts => by rw [relabelAll, relabelAll_eq_map φ ts, map_cons]

variable (t : Term)

@[simp]
theorem relabel_node (id : NodeId) (h : Head) (cs as : List Term) :
    (node id h cs as).relabel φ =
      node (φ.node id) (h.relabel φ) (cs.map (relabel φ)) (as.map (relabel φ)) := by
  rw [relabel, relabelAll_eq_map, relabelAll_eq_map]

@[simp]
theorem ident_relabel : (t.relabel φ).ident = φ.node t.ident := by
  cases t
  rw [relabel_node]
  rfl

@[simp]
theorem head_relabel : (t.relabel φ).head = t.head.relabel φ := by
  cases t
  rw [relabel_node]
  rfl

@[simp]
theorem children_relabel : (t.relabel φ).children = t.children.map (relabel φ) := by
  cases t
  rw [relabel_node]
  rfl

@[simp]
theorem axioms_relabel : (t.relabel φ).axioms = t.axioms.map (relabel φ) := by
  cases t
  rw [relabel_node]
  rfl

@[simp]
theorem op_relabel : (t.relabel φ).op = t.op := by
  rw [op, head_relabel]
  rfl

@[simp]
theorem sort_relabel : (t.relabel φ).sort = t.sort := by
  rw [sort, head_relabel]
  rfl

@[simp]
theorem name?_relabel : (t.relabel φ).name? = t.name?.map φ.name := by
  unfold name?
  have hpayload : (t.relabel φ).payload = t.payload.map (Literal.relabel φ) := by
    rw [payload, head_relabel]
    rfl
  rw [op_relabel, hpayload]
  cases t.op <;> try rfl
  rcases t.payload with _ | ⟨_ | _ | _⟩ <;> rfl

theorem head_relabel_eq_iff {h k : Head} (hk : ∀ n, k.payload ≠ some (.name n)) :
    h.relabel φ = k ↔ h = k := by
  rcases h with ⟨op, sort, payload⟩
  rcases payload with _ | ⟨n | _ | _⟩ <;> try rfl
  constructor
  · rintro rfl
    exact absurd rfl (hk _)
  · rintro rfl
    exact absurd rfl (hk _)

@[simp]
theorem isTrue_relabel : (t.relabel φ).isTrue = t.isTrue := by
  rw [isTrue, isTrue, Bool.eq_iff_iff, beq_iff_eq, beq_iff_eq, head_relabel]
  exact head_relabel_eq_iff (by simp)

@[simp]
theorem isFalse_relabel : (t.relabel φ).isFalse = t.isFalse := by
  rw [isFalse, isFalse, Bool.eq_iff_iff, beq_iff_eq, beq_iff_eq, head_relabel]
  exact head_relabel_eq_iff (by simp)

theorem filterMap_name?_relabel (ts : List Term) :
    (ts.map (relabel φ)).filterMap name? = (ts.filterMap name?).map φ.name := by
  rw [filterMap_map, map_filterMap]
  exact filterMap_congr fun t _ => name?_relabel t

@[simp]
theorem boundNames_relabel : (t.relabel φ).boundNames = t.boundNames.map φ.name := by
  unfold boundNames
  rw [op_relabel]
  split
  · rw [children_relabel, ← map_dropLast, filterMap_name?_relabel]
  · rfl

@[simp]
theorem indexArity_relabel (ts : List Term) : indexArity (ts.map (relabel φ)) = indexArity ts := by
  unfold indexArity
  rw [getElem?_map]
  cases ts[1]? with
  | none => rfl
  | some t => simp

end Term

open Term

/-! ### Names of relabelled terms -/

/-- The nodes in one set are those in the other, relabelled. -/
def NodeSet.Matches (φ : Relabelling) (a b : NodeSet) : Prop :=
  ∀ id, b.contains (φ.node id) = a.contains id

theorem NodeSet.Matches.insert {a b : NodeSet} (h : NodeSet.Matches φ a b) (id : NodeId) :
    NodeSet.Matches φ (a.insert id) (b.insert (φ.node id)) := by
  intro j
  rw [Std.TreeSet.contains_insert, Std.TreeSet.contains_insert, h j, Bool.eq_iff_iff]
  simp [φ.node_injective.eq_iff]

theorem NodeSet.matches_empty : NodeSet.Matches φ ∅ ∅ :=
  fun _ => by simp

namespace Term

/-- Two walks have seen corresponding nodes and names. -/
structure Scan.Matches (φ : Relabelling) (s s' : Scan) : Prop where
  visited : NodeSet.Matches φ s.visited s'.visited
  names : s'.names = s.names.map φ.name

theorem Scan.Matches.found {s s' : Scan} (h : s.Matches φ s') (n : String) :
    (s.found n).Matches φ (s'.found (φ.name n)) := by
  unfold Scan.found
  rw [h.names, φ.contains_map]
  split
  · exact h
  · exact ⟨h.visited, by simp⟩

theorem Scan.Matches.mark {s s' : Scan} (h : s.Matches φ s') (id : NodeId) :
    (s.mark id).Matches φ (s'.mark (φ.node id)) :=
  ⟨h.visited.insert id, h.names⟩

theorem Scan.matches_empty : Scan.Matches φ {} {} :=
  ⟨NodeSet.matches_empty, rfl⟩

theorem Scan.Matches.foldl {step step' : Term → Scan → Scan} : ∀ {ts : List Term},
    (∀ t ∈ ts, ∀ {s s' : Scan}, s.Matches φ s' →
      (step t s).Matches φ (step' (t.relabel φ) s')) →
    ∀ {s s' : Scan}, s.Matches φ s' → (ts.foldl (fun s t => step t s) s).Matches φ
      ((ts.map (relabel φ)).foldl (fun s t => step' t s) s')
  | [], _, _, _, hs => hs
  | _ :: _, hstep, _, _, hs =>
    foldl (fun u hu => hstep u (mem_cons_of_mem _ hu)) (hstep _ mem_cons_self hs)

theorem scanned_relabel (t : Term) : (t.relabel φ).scanned = t.scanned.map (relabel φ) := by
  unfold scanned
  rw [op_relabel, children_relabel]
  split
  · rw [getLast?_map]
    cases t.children.getLast? <;> rfl
  · rfl

theorem scanFree_relabel (t : Term) : ∀ (bound : List String) {s s' : Scan}, s.Matches φ s' →
    (scanFree bound t s).Matches φ (scanFree (bound.map φ.name) (t.relabel φ) s') := by
  induction t using Term.induction with
  | step t ih =>
    intro bound s s' hs
    rw [scanFree_eq, scanFree_eq, ident_relabel, isEmpty_map, hs.visited, name?_relabel]
    split
    · exact hs
    · -- Both walks remember the node, or neither does.
      have hmark : (s.enter bound t).Matches φ
          (s'.enter (bound.map φ.name) (t.relabel φ)) := by
        unfold Scan.enter
        rw [isEmpty_map, ident_relabel]
        split
        · exact hs.mark t.ident
        · exact hs
      cases t.name? with
      | some n =>
        dsimp only [Option.map_some]
        rw [φ.contains_map]
        split
        · exact hmark
        · exact hmark.found n
      | none =>
        dsimp only [Option.map_none]
        rw [boundNames_relabel, ← map_append, scanned_relabel]
        exact hmark.foldl fun c hc => ih c (mem_children_of_scanned hc) _

@[simp]
theorem freeVars_relabel (t : Term) : (t.relabel φ).freeVars = t.freeVars.map φ.name :=
  (scanFree_relabel t [] Scan.matches_empty).names

theorem scanNames_relabel (t : Term) : ∀ {s s' : Scan}, s.Matches φ s' →
    (scanNames t s).Matches φ (scanNames (t.relabel φ) s') := by
  induction t using Term.induction with
  | step t ih =>
    intro s s' hs
    rw [scanNames_eq, scanNames_eq, ident_relabel, hs.visited, name?_relabel, children_relabel]
    split
    · exact hs
    · cases t.name? with
      | some n => exact ((hs.mark t.ident).found n).foldl ih
      | none => exact (hs.mark t.ident).foldl ih

@[simp]
theorem allNames_relabel (t : Term) : (t.relabel φ).allNames = t.allNames.map φ.name :=
  (scanNames_relabel t Scan.matches_empty).names

end Term

/-! ### Axioms of relabelled terms -/

namespace AxiomBag

/-- The second bag has the axioms of the first, relabelled. -/
structure Matches (φ : Relabelling) (b b' : AxiomBag) : Prop where
  items : b'.items = b.items.map (relabel φ)
  seen : NodeSet.Matches φ b.seen b'.seen

/-- So it is with bags that are being filled, and with the nodes passed. -/
structure Filling.Matches (φ : Relabelling) (s s' : Filling) : Prop where
  bag : s.bag.Matches φ s'.bag
  visited : NodeSet.Matches φ s.visited s'.visited

theorem matches_empty : Matches φ {} {} :=
  ⟨rfl, NodeSet.matches_empty⟩

variable {b b' : AxiomBag}

theorem Matches.contains (h : b.Matches φ b') (t : Term) :
    b'.contains (t.relabel φ) = b.contains t := by
  rw [AxiomBag.contains, AxiomBag.contains, ident_relabel, h.seen]

theorem Matches.insert (h : b.Matches φ b') (t : Term) :
    (b.insert t).Matches φ (b'.insert (t.relabel φ)) := by
  unfold AxiomBag.insert
  rw [h.contains]
  split
  · exact h
  · refine ⟨by simp [h.items], ?_⟩
    rw [ident_relabel]
    exact h.seen.insert t.ident

theorem Matches.insertAll : ∀ {b b' : AxiomBag}, b.Matches φ b' → ∀ ts : List Term,
    (b'.insertAll (ts.map (relabel φ))).1 = (b.insertAll ts).1 ∧
      (b.insertAll ts).2.Matches φ (b'.insertAll (ts.map (relabel φ))).2
  | _, _, h, [] => ⟨rfl, h⟩
  | b, b', h, t :: ts => by
    rcases (h.insert t).insertAll ts with ⟨hnews, hbag⟩
    rw [map_cons, AxiomBag.insertAll, AxiomBag.insertAll, h.contains]
    exact ⟨congrArg (List.cons _) hnews, hbag⟩

mutual

theorem fill_relabel : ∀ (t : Term) {s s' : Filling}, s.Matches φ s' →
    (fill t s).Matches φ (fill (t.relabel φ) s')
  | .node id h cs as, s, s', hs => by
    rw [relabel_node, fill, fill, hs.visited id]
    split
    · exact hs
    · have hadd := hs.bag.insertAll as
      generalize s.bag.insertAll as = added at hadd
      generalize s'.bag.insertAll (as.map (relabel φ)) = added' at hadd
      rcases added with ⟨news, bag⟩
      rcases added' with ⟨_, bag'⟩
      rcases hadd with ⟨rfl, hbag⟩
      refine fillMarked_relabel as _ (fillList_relabel cs ?_)
      exact ⟨hbag, hs.visited.insert id⟩

theorem fillList_relabel : ∀ (ts : List Term) {s s' : Filling}, s.Matches φ s' →
    (fillList ts s).Matches φ (fillList (ts.map (relabel φ)) s')
  | [], _, _, hs => by
    rw [map_nil, fillList, fillList]
    exact hs
  | t :: ts, s, s', hs => by
    rw [map_cons, fillList, fillList]
    exact fill_relabel t (fillList_relabel ts hs)

theorem fillMarked_relabel : ∀ (ts : List Term) (news : List Bool) {s s' : Filling},
    s.Matches φ s' → (fillMarked ts news s).Matches φ (fillMarked (ts.map (relabel φ)) news s')
  | [], _, _, _, hs => by
    simpa only [map_nil, fillMarked] using hs
  | _ :: _, [], _, _, hs => by
    simpa only [map_cons, fillMarked] using hs
  | t :: ts, new :: news, s, s', hs => by
    have hrest := fillMarked_relabel ts news hs
    rw [map_cons, fillMarked, fillMarked]
    split
    · exact fill_relabel t hrest
    · exact hrest

end

theorem Matches.collect (h : b.Matches φ b') (t : Term) :
    (b.collect t).Matches φ (b'.collect (t.relabel φ)) :=
  (fill_relabel t ⟨h, NodeSet.matches_empty⟩).bag

end AxiomBag

theorem Term.items_collectAxioms_relabel (t : Term) :
    (t.relabel φ).collectAxioms.items = t.collectAxioms.items.map (relabel φ) :=
  (AxiomBag.matches_empty.collect t).items

end Vouch
