import Vouch.Proofs.Term.Upkeep

/-!
# Computations Side by Side

The same computation, started with two supplies, makes two terms. They are the same up
to relabelling if what the supplies draw is. The theory takes part in this: the axioms
that it attaches have to go to those that the other computation attaches.

## Main definitions

* `Parallel`: Two computations end with related results.
* `Relabelling.Draws`: What two supplies draw corresponds.
* `Theory.Steady`: Relabelled nodes get the relabelled axioms.

## Theorems

* `Term.parallel_subst`: Substitutions go side by side.
* `Theory.Steady.upholds`: So does building terms.
-/

namespace Vouch

open List Term

/-- Started with supplies that are related, the computations end with related
    results and supplies. -/
def Parallel {α : Type} (K : Supply → Supply → Prop) (m m' : Fresh α) (R : α → α → Prop) : Prop :=
  ∀ s s', K s s' → R (m.run s).1 (m'.run s').1 ∧ K (m.run s).2 (m'.run s').2

section Rules

variable {α β : Type} {K : Supply → Supply → Prop} {R : α → α → Prop} {Q : β → β → Prop}

theorem parallel_pure {a a' : α} (h : R a a') : Parallel K (pure a) (pure a') R :=
  fun _ _ hs => ⟨h, hs⟩

variable {f f' : α → Fresh β}

theorem parallel_bind {m m' : Fresh α} (hm : Parallel K m m' R)
    (hf : ∀ a a', R a a' → Parallel K (f a) (f' a') Q) : Parallel K (m >>= f) (m' >>= f') Q := by
  intro s s' hs
  rcases hm s s' hs with ⟨hR, hnext⟩
  exact hf _ _ hR _ _ hnext

theorem parallel_step {g : α → α} {m m' : Fresh α} (hm : Parallel K m m' fun a a' => a' = g a)
    (hf : ∀ a, Parallel K (f a) (f' (g a)) Q) : Parallel K (m >>= f) (m' >>= f') Q :=
  parallel_bind hm fun a _ h => h ▸ hf a

/-- Follow both computations. -/
def Relabelling.coupling (φ : Relabelling) (K : Supply → Supply → Prop) : Coupling Unit where
  labels := φ
  Makes _ m m' Q := Parallel K m m' (Q ())
  makes_pure h := parallel_pure h
  makes_bind hm hf := parallel_bind hm fun a a' ha => hf () a a' le_rfl ha
  and_gives hm h s s' hs := ⟨⟨(hm s s' hs).1, h s⟩, (hm s s' hs).2⟩

end Rules

namespace Relabelling

/-- The second term is the first, relabelled. -/
def Copies (φ : Relabelling) (t t' : Term) : Prop :=
  t' = t.relabel φ

/-- The second terms are the first, relabelled. -/
def CopiesAll (φ : Relabelling) (ts ts' : List Term) : Prop :=
  ts' = ts.map (relabel φ)

/-- The next identities of related supplies correspond, and the supplies stay related
    when a node is made. -/
structure Draws (φ : Relabelling) (K : Supply → Supply → Prop) : Prop where
  node : ∀ {s s'}, K s s' → φ.node ⟨s.family, s.nextNode⟩ = ⟨s'.family, s'.nextNode⟩
  next : ∀ {s s'}, K s s' →
    K { s with nextNode := s.nextNode + 1 } { s' with nextNode := s'.nextNode + 1 }

end Relabelling

variable {φ : Relabelling} {K : Supply → Supply → Prop}

theorem Parallel.copies {m m' : Fresh Term} (h : Parallel K m m' φ.Copies) :
    (φ.coupling K).Copies () m m' fun _ _ => True :=
  fun s s' hs => ⟨⟨(h s s' hs).1, trivial⟩, (h s s' hs).2⟩

section Nodes

variable (hK : φ.Draws K)
include hK

theorem parallel_make (h : Head) (cs as : List Term) :
    Parallel K (Term.make h cs as)
      (Term.make (h.relabel φ) (cs.map (relabel φ)) (as.map (relabel φ))) φ.Copies := by
  intro s s' hs
  refine ⟨?_, hK.next hs⟩
  have hnode := hK.node hs
  simp only [Relabelling.Copies, Term.make, StateT.run_bind, StateT.run_get, pure_bind]
  rw [← hnode]
  exact (relabel_node _ _ _ _).symm

theorem parallel_var (n : String) (sort : TermSort) :
    Parallel K (Term.var n sort) (Term.var (φ.name n) sort) φ.Copies :=
  parallel_make hK _ [] []

theorem parallel_withChildren (t : Term) (cs : List Term) :
    Parallel K (t.withChildren cs) ((t.relabel φ).withChildren (cs.map (relabel φ)))
      φ.Copies := by
  have hids : ∀ ts : List Term, (ts.map (relabel φ)).map ident = (ts.map ident).map φ.node := by
    intro ts
    rw [map_map, map_map]
    exact map_congr_left fun t _ => ident_relabel t
  have hsame : ((cs.map (relabel φ)).map ident == (t.relabel φ).children.map ident) =
      (cs.map ident == t.children.map ident) := by
    rw [children_relabel, hids, hids, Bool.eq_iff_iff, beq_iff_eq, beq_iff_eq,
      (map_injective_iff.mpr φ.node_injective).eq_iff]
  unfold Term.withChildren
  rw [hsame]
  split
  · exact parallel_pure rfl
  · rw [head_relabel, axioms_relabel]
    exact parallel_make hK _ _ _

end Nodes

/-! ### Substitution -/

/-- The substitution with its names and replacements relabelled. -/
def Subst.relabel (φ : Relabelling) (σ : Subst) : Subst :=
  ⟨σ.entries.map fun e => (φ.name e.1, e.2.relabel φ)⟩

namespace Subst

variable (σ : Subst)

theorem find?_relabel (n : String) :
    (σ.relabel φ).find? (φ.name n) = (σ.find? n).map (Term.relabel φ) := by
  unfold NameMap.find? Subst.relabel
  induction σ.entries with
  | nil => rfl
  | cons e es ih =>
    rw [map_cons, lookup_cons, lookup_cons]
    by_cases hn : n = e.1
    · simp [hn]
    · have hname : (φ.name n == φ.name e.1) = false := by simpa [φ.injective.eq_iff] using hn
      have hkey : (n == e.1) = false := by simpa using hn
      rw [hname, hkey]
      exact ih

theorem contains_relabel (n : String) : (σ.relabel φ).contains (φ.name n) = σ.contains n := by
  rw [NameMap.contains, NameMap.contains, find?_relabel, Option.isSome_map]

theorem keys_relabel : (σ.relabel φ).keys = σ.keys.map φ.name := by
  rw [NameMap.keys, NameMap.keys, relabel, map_map, map_map]
  rfl

theorem isEmpty_relabel : (σ.relabel φ).isEmpty = σ.isEmpty :=
  isEmpty_map

theorem eraseAll_relabel (names : List String) :
    (σ.relabel φ).eraseAll (names.map φ.name) = Subst.relabel φ (σ.eraseAll names) := by
  unfold NameMap.eraseAll Subst.relabel
  rw [filter_map]
  congr 2
  exact filter_congr fun e _ => congrArg not (φ.contains_map names e.1)

theorem insert_relabel (n : String) (r : Term) :
    (σ.relabel φ).insert (φ.name n) (r.relabel φ) = Subst.relabel φ (σ.insert n r) := by
  have herase := eraseAll_relabel (φ := φ) σ [n]
  unfold NameMap.insert
  rw [map_cons, map_nil] at herase
  rw [herase]
  rfl

theorem insertAll_relabel (entries : List (String × Term)) :
    (σ.relabel φ).insertAll (entries.map fun e => (φ.name e.1, e.2.relabel φ)) =
      Subst.relabel φ (σ.insertAll entries) := by
  induction entries generalizing σ with
  | nil => rfl
  | cons e es ih =>
    have hfirst := insert_relabel (φ := φ) σ e.1 e.2
    unfold NameMap.insertAll at ih ⊢
    rw [map_cons, foldl_cons, foldl_cons, hfirst]
    exact ih _

theorem incoming_relabel : (σ.relabel φ).incoming = σ.incoming.map φ.name := by
  unfold incoming NameMap.values Subst.relabel
  induction σ.entries with
  | nil => rfl
  | cons e es ih => simp only [map_cons, flatMap_cons, map_append,
      freeVars_relabel, ih]

theorem meets_relabel (inc names : List String) :
    (σ.relabel φ).meets (inc.map φ.name) (names.map φ.name) = σ.meets inc names := by
  unfold meets
  rw [any_map]
  congr 1
  funext n
  exact congrArg₂ or (contains_relabel σ n) (φ.contains_map inc n)

section Substitute

variable (hK : φ.Draws K)
include hK

theorem parallel_renameBinders (inc : List String) : ∀ (vs : List Term) (taken : List String)
    (σ : Subst), Parallel K (renameBinders inc vs taken σ)
      (renameBinders (inc.map φ.name) (vs.map (Term.relabel φ)) (taken.map φ.name) (σ.relabel φ))
      fun p p' => φ.CopiesAll p.1 p'.1 ∧ p'.2 = Subst.relabel φ p.2
  | [], _, _ => parallel_pure ⟨rfl, rfl⟩
  | v :: vs, taken, σ => by
    have hkeep : Parallel K
        (renameBinders inc vs taken σ >>= fun p => pure (v :: p.1, p.2))
        (renameBinders (inc.map φ.name) (vs.map (Term.relabel φ)) (taken.map φ.name)
          (σ.relabel φ) >>= fun p => pure (v.relabel φ :: p.1, p.2))
        fun p p' => φ.CopiesAll p.1 p'.1 ∧ p'.2 = Subst.relabel φ p.2 := by
      refine parallel_bind (parallel_renameBinders inc vs taken σ) fun p p' hp => ?_
      exact parallel_pure ⟨congrArg (List.cons _) hp.1, hp.2⟩
    rw [map_cons]
    unfold renameBinders
    rw [name?_relabel]
    cases v.name? with
    | none => exact hkeep
    | some n =>
      dsimp only [Option.map_some]
      rw [φ.contains_map, sort_relabel, φ.freshNumbered_map]
      split
      · refine parallel_step (parallel_var hK _ _) fun r => ?_
        rw [insert_relabel, ← map_cons]
        refine parallel_bind (parallel_renameBinders inc vs _ _) fun p p' hp => ?_
        exact parallel_pure ⟨congrArg (List.cons _) hp.1, hp.2⟩
      · exact hkeep

end Substitute

end Subst

namespace Term

/-- What is remembered of nodes corresponds. -/
def MemoCopies (φ : Relabelling) (M M' : NodeMap Term) : Prop :=
  ∀ id, M'[φ.node id]? = M[id]?.map (relabel φ)

theorem MemoCopies.insert {M M' : NodeMap Term} (h : MemoCopies φ M M') (id : NodeId) (r : Term) :
    MemoCopies φ (M.insert id r) (M'.insert (φ.node id) (r.relabel φ)) := by
  intro j
  simp only [Std.TreeMap.getElem?_insert, Std.compare_eq_iff_eq, φ.node_injective.eq_iff]
  split
  · rfl
  · exact h j

theorem memoCopies_empty : MemoCopies φ ∅ ∅ :=
  fun _ => by simp

/-- A node and what is remembered after it correspond. -/
def RebuiltCopies (φ : Relabelling) (p p' : Term × NodeMap Term) : Prop :=
  φ.Copies p.1 p'.1 ∧ MemoCopies φ p.2 p'.2

section Substitute

variable (hK : φ.Draws K)

/-- Substitution in the term and in the relabelled one go side by side. -/
def SubstParallel (φ : Relabelling) (K : Supply → Supply → Prop) (t : Term) : Prop :=
  ∀ (σ : Subst) (inc : List String) {M M' : NodeMap Term}, MemoCopies φ M M' →
    Parallel K ((substNode σ inc t).run M)
      ((substNode (σ.relabel φ) (inc.map φ.name) (t.relabel φ)).run M') (RebuiltCopies φ)

theorem parallel_substNodes (σ : Subst) (inc : List String) : ∀ {ts : List Term}
    {M M' : NodeMap Term}, (∀ t ∈ ts, SubstParallel φ K t) → MemoCopies φ M M' →
    Parallel K ((substNodes σ inc ts).run M)
      ((substNodes (σ.relabel φ) (inc.map φ.name) (ts.map (relabel φ))).run M')
      fun p p' => φ.CopiesAll p.1 p'.1 ∧ MemoCopies φ p.2 p'.2
  | [], _, _, _, hM => by
    rw [map_nil, substNodes, substNodes]
    exact parallel_pure ⟨rfl, hM⟩
  | t :: ts, M, M', hts, hM => by
    rw [map_cons, substNodes_cons, substNodes_cons]
    refine parallel_bind (hts t mem_cons_self σ inc hM) fun p p' hp => ?_
    refine parallel_bind (parallel_substNodes σ inc
      ((forall_mem_cons.mp hts).2) hp.2) fun q q' hq => ?_
    exact parallel_pure ⟨congrArg₂ List.cons hp.1 hq.1, hq.2⟩

theorem parallel_substLast (σ : Subst) (inc : List String) {ts : List Term}
    (hts : ∀ t ∈ ts, SubstParallel φ K t) :
    Parallel K (substLast σ inc ts)
      (substLast (σ.relabel φ) (inc.map φ.name) (ts.map (relabel φ)))
      fun b b' => b' = b.map (relabel φ) := by
  cases hb : ts.getLast? with
  | none =>
    rw [getLast?_eq_none_iff.mp hb, map_nil, substLast, substLast]
    exact parallel_pure rfl
  | some b =>
    have hb' : (ts.map (relabel φ)).getLast? = some (b.relabel φ) := by
      rw [getLast?_map, hb, Option.map_some]
    rw [substLast_of_getLast? hb, substLast_of_getLast? hb', Subst.isEmpty_relabel]
    split
    · exact parallel_pure rfl
    · refine parallel_bind (hts b (mem_of_getLast? hb) σ inc memoCopies_empty)
        fun p p' hp => ?_
      exact parallel_pure (congrArg some hp.1)

include hK

theorem parallel_substFirst (σ : Subst) (inc : List String) {t : Term} {M M' : NodeMap Term}
    (ih : ∀ c ∈ t.children, SubstParallel φ K c) (hM : MemoCopies φ M M') :
    Parallel K (substFirst σ inc t M)
      (substFirst (σ.relabel φ) (inc.map φ.name) (t.relabel φ) M') (RebuiltCopies φ) := by
  have hfound : (t.relabel φ).name?.bind (Subst.relabel φ σ).find? =
      (t.name?.bind σ.find?).map (relabel φ) := by
    rw [name?_relabel]
    cases t.name? with
    | none => rfl
    | some n => exact Subst.find?_relabel σ n
  unfold substFirst
  rw [hfound]
  cases t.name?.bind σ.find? with
  | some r => exact parallel_pure ⟨rfl, hM⟩
  | none =>
    dsimp only [Option.map_none]
    rw [boundNames_relabel, Subst.meets_relabel, children_relabel]
    split
    · -- The names that are taken below a quantifier correspond, so binders are renamed
      -- to corresponding names.
      have hbody : (((t.children.map (relabel φ)).getLast?.map allNames).getD [] ++
          inc.map φ.name ++ (Subst.relabel φ σ).keys) =
          ((t.children.getLast?.map allNames).getD [] ++ inc ++ σ.keys).map φ.name := by
        rw [getLast?_map, Subst.keys_relabel, map_append, map_append]
        cases t.children.getLast? with
        | none => rfl
        | some b => simp
      rw [hbody, ← map_dropLast, Subst.eraseAll_relabel]
      refine parallel_bind (Subst.parallel_renameBinders hK inc _ _ _) ?_
      rintro ⟨vs, inner⟩ ⟨vs', inner'⟩ ⟨hvs, hinner⟩
      obtain rfl : vs' = vs.map (relabel φ) := hvs
      obtain rfl : inner' = Subst.relabel φ inner := hinner
      rw [Subst.incoming_relabel]
      refine parallel_step (parallel_substLast inner inner.incoming ih) fun b => ?_
      have hparts : vs.map (relabel φ) ++ (b.map (relabel φ)).toList =
          (vs ++ b.toList).map (relabel φ) := by
        rw [map_append]
        cases b <;> rfl
      rw [hparts]
      refine parallel_bind (parallel_withChildren hK t _) fun r r' hr => ?_
      exact parallel_pure ⟨hr, hM⟩
    · refine parallel_bind (parallel_substNodes σ inc ih hM) ?_
      rintro ⟨cs, N⟩ ⟨cs', N'⟩ ⟨hcs, hN⟩
      obtain rfl : cs' = cs.map (relabel φ) := hcs
      refine parallel_bind (parallel_withChildren hK t _) fun r r' hr => ?_
      exact parallel_pure ⟨hr, hN⟩

theorem substParallel (t : Term) : SubstParallel φ K t := by
  induction t using Term.induction with
  | step t ih =>
    intro σ inc M M' hM
    rw [substNode_run, substNode_run, ident_relabel, hM t.ident]
    cases M[t.ident]? with
    | some r => exact parallel_pure ⟨rfl, hM⟩
    | none =>
      refine parallel_bind (parallel_substFirst hK σ inc ih hM) ?_
      rintro ⟨r, N⟩ ⟨r', N'⟩ ⟨hr, hN⟩
      obtain rfl : r' = r.relabel φ := hr
      exact parallel_pure ⟨rfl, hN.insert t.ident r⟩

/-- Every question about a node has the same answer after relabelling. -/
theorem parallel_subst (t : Term) (σ : Subst) :
    Parallel K (t.subst σ) ((t.relabel φ).subst (σ.relabel φ)) φ.Copies := by
  unfold Term.subst
  rw [Subst.isEmpty_relabel]
  split
  · exact parallel_pure rfl
  · rw [Subst.incoming_relabel]
    refine parallel_bind (substParallel hK t σ _ memoCopies_empty) fun p p' hp => ?_
    exact parallel_pure hp.1

end Substitute

end Term

/-! ### Theories -/

namespace Theory

/-- Relabelled nodes get the relabelled axioms. -/
structure Steady (th : Theory) (φ : Relabelling) (K : Supply → Supply → Prop) : Prop where
  schemas : ∀ e ∈ th.schemas, ∀ ts : List Term,
    Parallel K (e.2 ts) (e.2 (ts.map (relabel φ))) φ.CopiesAll
  literals : th.literalAxioms.map (relabel φ) = th.literalAxioms

section Constructors

variable {th : Theory} (hth : th.Steady φ K) (hK : φ.Draws K)
include hth hK

theorem Steady.make (op : Op) (sort : TermSort) (ts : List Term) :
    Parallel K (th.make op sort ts) (th.make op sort (ts.map (relabel φ))) φ.Copies := by
  unfold Theory.make
  cases hschema : th.schemas.lookup op with
  | none => exact parallel_make hK _ ts []
  | some schema =>
    refine parallel_step (hth.schemas _ (mem_of_lookup hschema) ts) fun as => ?_
    exact parallel_make hK _ ts as

theorem Steady.boolLit (b : Bool) : Parallel K (th.boolLit b) (th.boolLit b) φ.Copies := by
  have hmake := parallel_make hK { op := .lit, sort := .bool, payload := some (.bool b) } []
    th.literalAxioms
  rwa [hth.literals] at hmake

theorem Steady.all (vs : List Term) (b : Term) :
    Parallel K (th.all vs b) (th.all (vs.map (relabel φ)) (b.relabel φ)) φ.Copies := by
  unfold Theory.all
  rw [isEmpty_map]
  split
  · exact parallel_pure rfl
  · have hparts : vs.map (relabel φ) ++ [b.relabel φ] = (vs ++ [b]).map (relabel φ) := by simp
    rw [hparts]
    exact hth.make hK .all .formula (vs ++ [b])

theorem Steady.upholds : th.Upholds (φ.coupling K) (fun _ => True) fun _ _ _ => True where
  mono _ _ := trivial
  formula _ := (parallel_make hK _ [] []).copies
  int _ := (parallel_make hK _ [] []).copies
  boolLit b := (hth.boolLit hK b).copies
  make _ _ _ _ _ := (hth.make hK _ _ _).copies
  mapSelect _ _ _ := (hth.make hK _ _ [_, _]).copies
  mapUpdate _ _ _ := (hth.make hK _ _ [_, _, _]).copies

end Constructors

end Theory

end Vouch
