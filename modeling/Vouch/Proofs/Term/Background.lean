import Vouch.Proofs.Logic.Reading
import Vouch.Proofs.Term.Attached

/-!
# The Standard Theory Is True

All axioms of the standard theory are quantified over all the names they use, and the
body of the quantifier is one of the laws of standard structures, written as a term.
Nothing depends on the quantified names being different.

## Main definitions

* `Term.States`: A term to which nothing is attached, and what it states.
* `Theory.familyBuilder`: What is made in a family.

## Theorems

* `gives_mapUpdateAxioms`: What the axioms of map update state.
* `Structure.Standard.attaches`: All axioms of the standard theory hold.
-/

namespace Vouch

open List Term Structure

namespace Term

/-- Nothing is attached to the term, and its free names are some of these. -/
structure Bare (ns : List String) (t : Term) : Prop where
  carries : Carries (fun _ => False) t
  free : FreeIn (· ∈ ns) t

/-- A bare term with these values. -/
structure Denotes (S : Structure) (ns : List String) (t : Term)
    (f : Env S.Value → List S.Value) : Prop where
  bare : Bare ns t
  values : ∀ E, S.values E t = f E

/-- A bare term that states this. -/
structure States (S : Structure) (ns : List String) (t : Term) (P : Env S.Value → Prop) :
    Prop where
  bare : Bare ns t
  holds : ∀ E, S.Holds t E ↔ P E

theorem Carries.of_none {t : Term} (h : Carries (fun _ => False) t) (A : Term → Prop) :
    Carries A t := by
  induction h with
  | intro _ hno _ ihc _ =>
    exact .intro ihc (fun a ha => (hno a ha).elim) fun a ha => (hno a ha).elim

theorem States.of_forall {S : Structure} {ns : List String} {t : Term} {P : Env S.Value → Prop}
    (h : States S ns t P) (hP : ∀ E, P E) : States S ns t fun _ => True :=
  ⟨h.bare, fun E => (h.holds E).trans (iff_true_intro (hP E))⟩

theorem Denotes.mono {S : Structure} {ns ms : List String} {t : Term}
    {f : Env S.Value → List S.Value} (h : Denotes S ns t f) (hsub : ns ⊆ ms) : Denotes S ms t f :=
  ⟨⟨h.bare.carries, fun n hn => hsub (h.bare.free n hn)⟩, h.values⟩

end Term

section Nodes

variable {S : Structure} {ns : List String} {a b : Term} {f g : Env S.Value → S.Value}

theorem bare_pair (ha : Bare ns a) (hb : Bare ns b) : ∀ c ∈ [a, b], Bare ns c := by
  simp [ha, hb]

variable {cs : List Term} {op : Op} {Ps : List (Env S.Value → Prop)}

theorem gives_plain (hall : op ≠ .all) (sort : TermSort) (hcs : ∀ c ∈ cs, Bare ns c) :
    Gives (plain op sort cs) fun t => t.head = { op, sort } ∧ t.children = cs ∧ Bare ns t := by
  intro s
  rcases gives_make { op, sort } cs [] s with ⟨hhead, hchildren, _⟩
  refine ⟨hhead, hchildren, gives_make_carries (fun c hc => (hcs c hc).carries) (by simp) s, ?_⟩
  exact .of_head hhead (.inr rfl) hall fun c hc => (hcs c (hchildren ▸ hc)).free

theorem gives_var (S : Structure) {n : String} (hn : n ∈ ns) (sort : TermSort) :
    Gives (Term.var n sort) fun t => t.name? = some n ∧ Denotes S ns t fun E => [E.value n] :=
  fun s => ⟨rfl, ⟨gives_leaf _ s, .of_var rfl hn⟩, fun E => values_var rfl E⟩

theorem gives_boolLit (S : Structure) (ns : List String) (v : Bool) :
    Gives (Term.boolLit v) (Denotes S ns · fun _ => [S.bool v]) := by
  intro s
  obtain ⟨hhead, hcs, _⟩ :=
    gives_make { op := .lit, sort := .bool, payload := some (.bool v) } [] [] s
  refine ⟨⟨gives_leaf _ s, ?_⟩, fun E => values_literal (l := .bool v) rfl E⟩
  exact .of_head hhead (by simp) (by simp) (by rw [Term.boolLit, hcs]; simp)

theorem gives_operator (hop : op ∈ [Op.tlt, .teq, .teqInt, .teqBool, .tnand])
    (ha : Denotes S ns a fun E => [f E]) (hb : Denotes S ns b fun E => [g E]) :
    Gives (plain op .bool [a, b]) (Denotes S ns · fun E => [S.operator op [f E, g E]]) := by
  have hall : op ≠ .all := by rintro rfl; simp at hop
  have htuple : op ≠ .tuple := by rintro rfl; simp at hop
  have hresult : ∀ k vs, S.result { op, sort := .bool } k vs = S.operator op vs := by
    simp only [mem_cons, not_mem_nil, or_false] at hop
    rcases hop with rfl | rfl | rfl | rfl | rfl <;> exact fun _ _ => rfl
  intro s
  rcases gives_plain hall .bool (bare_pair ha.bare hb.bare) s with ⟨hhead, hcs, hbare⟩
  refine ⟨hbare, fun E => ?_⟩
  rw [values_operator hhead htuple, hcs, hresult]
  simp [ha.values, hb.values]

/-- What an atom says of two values. -/
def Structure.atom (S : Structure) : Op → S.Value → S.Value → Prop
  | .eq, a, b => a = b
  | .neq, a, b => a ≠ b
  | .lt, a, b => S.less a b
  | _, _, _ => True

theorem gives_atom (hop : op ∈ [Op.eq, .neq, .lt]) (ha : Denotes S ns a fun E => [f E])
    (hb : Denotes S ns b fun E => [g E]) :
    Gives (plain op .formula [a, b]) (States S ns · fun E => S.atom op (f E) (g E)) := by
  have hall : op ≠ .all := by rintro rfl; simp at hop
  intro s
  rcases gives_plain hall .formula (bare_pair ha.bare hb.bare) s with ⟨hhead, hcs, hbare⟩
  refine ⟨hbare, fun E => ?_⟩
  rw [holds_operator hhead hall, hcs]
  simp only [mem_cons, not_mem_nil, or_false] at hop
  rcases hop with rfl | rfl | rfl <;> simp [Structure.states, Structure.atom, ha.values, hb.values]

theorem gives_holds (ha : Denotes S ns a fun E => [f E]) :
    Gives (Term.holds a) (States S ns · fun E => f E = S.bool true) :=
  gives_bind (gives_boolLit S ns true) fun _ hlit => gives_atom (by simp) ha hlit

theorem bare_of_states (h : Forall₂ (States S ns) cs Ps) : ∀ c ∈ cs, Bare ns c := by
  intro c hc
  rcases exists_of_forall₂_left h hc with ⟨_, _, hstates⟩
  exact hstates.bare

theorem map_holds_of_states (h : Forall₂ (States S ns) cs Ps) (E : Env S.Value) :
    cs.map (S.Holds · E) = Ps.map (· E) := by
  induction h with
  | nil => rfl
  | cons hc _ ih => rw [map_cons, map_cons, ih, propext (hc.holds E)]

theorem Structure.states_connective (hop : op ∈ [Op.and, .or, .not, .implies, .iff])
    (ps : List Prop) (vs : List S.Value) :
    S.states { op, sort := .formula } ps vs ↔ S.states { op, sort := .formula } ps [] := by
  simp only [mem_cons, not_mem_nil, or_false] at hop
  rcases hop with rfl | rfl | rfl | rfl | rfl <;>
    rcases ps with _ | ⟨p, _ | ⟨q, _ | ⟨r, ps⟩⟩⟩ <;> rfl

theorem gives_connective (hop : op ∈ [Op.and, .or, .not, .implies, .iff])
    (h : Forall₂ (States S ns) cs Ps) :
    Gives (plain op .formula cs)
      (States S ns · fun E => S.states { op, sort := .formula } (Ps.map (· E)) []) := by
  have hall : op ≠ .all := by rintro rfl; simp at hop
  intro s
  rcases gives_plain hall .formula (bare_of_states h) s with ⟨hhead, hcs, hbare⟩
  refine ⟨hbare, fun E => ?_⟩
  rw [holds_operator hhead hall, hcs, map_holds_of_states h E]
  exact states_connective hop _ _

variable {P Q : Env S.Value → Prop}

theorem gives_and (ha : States S ns a P) (hb : States S ns b Q) :
    Gives (plain .and .formula [a, b]) (States S ns · fun E => P E ∧ Q E) := by
  intro s
  have hand := gives_connective (by simp : Op.and ∈ _) (.cons ha (.cons hb .nil)) s
  refine ⟨hand.bare, fun E => (hand.holds E).trans ?_⟩
  change (∀ p ∈ [P E, Q E], p) ↔ P E ∧ Q E
  rw [forall_mem_cons, forall_mem_singleton]

theorem gives_not (ha : States S ns a P) :
    Gives (plain .not .formula [a]) (States S ns · fun E => ¬ P E) :=
  gives_connective (by simp) (.cons ha .nil)

theorem gives_implies (ha : States S ns a P) (hb : States S ns b Q) :
    Gives (plain .implies .formula [a, b]) (States S ns · fun E => P E → Q E) :=
  gives_connective (by simp) (.cons ha (.cons hb .nil))

theorem gives_iff (ha : States S ns a P) (hb : States S ns b Q) :
    Gives (plain .iff .formula [a, b]) (States S ns · fun E => P E ↔ Q E) :=
  gives_connective (by simp) (.cons ha (.cons hb .nil))

theorem gives_plainAll {vs : List Term} (hvs : ∀ v ∈ vs, Bare ns v)
    (hnames : vs.filterMap name? = ns) (hb : States S ns b P) :
    Gives (plainAll vs b) (States S [] · (Env.ForAll ns P)) := by
  have hcarries : ∀ c ∈ vs ++ [b], Carries (fun _ => False) c := by
    intro c hc
    rcases mem_append.mp hc with hc | hc
    · exact (hvs c hc).carries
    · rw [mem_singleton.mp hc]
      exact hb.bare.carries
  intro s
  rcases gives_make { op := .all, sort := .formula } (vs ++ [b]) [] s with ⟨hhead, hcs, _⟩
  have hop : ((plainAll vs b).run s).1.op = .all := congrArg Head.op hhead
  refine ⟨⟨gives_make_carries hcarries (by simp) s, ?_⟩, fun E => ?_⟩
  · refine .of_all hop hcs fun n hn hnot => ?_
    rw [hnames] at hnot
    exact absurd (hb.bare.free n hn) hnot
  · rw [holds_all hop hcs, hnames, funext fun E => propext (hb.holds E)]

theorem gives_law {vs : List Term} (hvs : ∀ v ∈ vs, Bare ns v)
    (hnames : vs.filterMap name? = ns) (hb : States S ns b P) (hP : ∀ E, P E) :
    Gives (plainAll vs b) (States S [] · fun _ => True) :=
  fun s => (gives_plainAll hvs hnames hb s).of_forall (Env.forAll_of_forall hP ns)

end Nodes

namespace Theory

/-- The axiom that the value of `op` is true exactly if a description of the operands
    holds. -/
def describing (op : Op) (sort : TermSort) (description : Term → Term → Fresh Term) :
    Fresh Term := do
  let a ← Term.var "a" sort
  let b ← Term.var "b" sort
  let lhs ← holds (← plain op .bool [a, b])
  let rhs ← description a b
  plainAll [a, b] (← plain .iff .formula [lhs, rhs])

theorem reflectAxiom_eq (op atom : Op) :
    reflectAxiom op atom = describing op .value fun a b => plain atom .formula [a, b] :=
  rfl

theorem nandAxiom_eq : nandAxiom = describing .tnand .bool (fun a b => do
    plain .not .formula [← plain .and .formula [← holds a, ← holds b]]) :=
  rfl

end Theory

section Axioms

variable {S : Structure}

theorem gives_describing {op : Op} {sort : TermSort} {description : Term → Term → Fresh Term}
    {P : S.Value → S.Value → Prop} (hop : op ∈ [Op.tlt, .teq, .teqInt, .teqBool, .tnand])
    (hdescription : ∀ {ns : List String} {a b : Term} {f g : Env S.Value → S.Value},
      (Denotes S ns a fun E => [f E]) → (Denotes S ns b fun E => [g E]) →
      Gives (description a b) (States S ns · fun E => P (f E) (g E)))
    (h : ∀ a b, S.operator op [a, b] = S.bool true ↔ P a b) :
    Gives (Theory.describing op sort description) (States S [] · fun _ => True) := by
  have hns : "a" ∈ ["a", "b"] ∧ "b" ∈ ["a", "b"] := by simp
  unfold Theory.describing
  refine gives_bind (gives_var S hns.1 sort) fun a ⟨hna, ha⟩ => ?_
  refine gives_bind (gives_var S hns.2 sort) fun b ⟨hnb, hb⟩ => ?_
  refine gives_bind (gives_operator hop ha hb) fun v hv => ?_
  refine gives_bind (gives_holds hv) fun lhs hlhs => ?_
  refine gives_bind (hdescription ha hb) fun rhs hrhs => ?_
  refine gives_bind (gives_iff hlhs hrhs) fun body hbody => ?_
  exact gives_law (bare_pair ha.bare hb.bare) (by simp [hna, hnb]) hbody fun E => h _ _

theorem gives_reflectAxiom {op atom : Op} (hop : op ∈ [Op.tlt, .teq, .teqInt, .teqBool, .tnand])
    (hatom : atom ∈ [Op.eq, .neq, .lt])
    (h : ∀ a b, S.operator op [a, b] = S.bool true ↔ S.atom atom a b) :
    Gives (Theory.reflectAxiom op atom) (States S [] · fun _ => True) := by
  rw [Theory.reflectAxiom_eq]
  exact gives_describing hop (gives_atom hatom) h

theorem gives_nandAxiom (hS : S.Standard) :
    Gives Theory.nandAxiom (States S [] · fun _ => True) := by
  rw [Theory.nandAxiom_eq]
  refine gives_describing (by simp) (fun ha hb => ?_) hS.tnand
  refine gives_bind (gives_holds ha) fun p hp => ?_
  refine gives_bind (gives_holds hb) fun q hq => ?_
  exact gives_bind (gives_and hp hq) fun both hboth => gives_not hboth

theorem gives_literalAxiom (hS : S.Standard) :
    Gives Theory.literalAxiom (States S [] · fun _ => True) := by
  unfold Theory.literalAxiom
  refine gives_bind (gives_boolLit S [] true) fun a ha => ?_
  refine gives_bind (gives_boolLit S [] false) fun b hb => ?_
  exact fun s => (gives_atom (by simp) ha hb s).of_forall fun _ => hS.true_ne_false

end Axioms

section Maps

variable {S : Structure} {ns : List String} {is js : List Term}

/-- The names of index variables. -/
def indexNames (base : String) (ks : List Nat) : List String :=
  ks.map fun k => base ++ toString k

/-- The variable at a place among the index variables. -/
structure IndexVar (S : Structure) (base : String) (k : Nat) (t : Term) : Prop where
  name : t.name? = some (base ++ toString k)
  denotes : ∀ ns, base ++ toString k ∈ ns → Denotes S ns t fun E => [E.value (base ++ toString k)]

theorem gives_indexVars (S : Structure) (base : String) (arity : Nat) :
    Gives (Theory.indexVars base arity) (Forall₂ (IndexVar S base) (List.range arity)) :=
  gives_mapM fun _ _ s => ⟨rfl, fun _ hn => (gives_var S hn .value s).2⟩

variable {base b c : String} {ks : List Nat} {f : Env S.Value → S.Value} {E : Env S.Value}

theorem bare_indexVars (h : Forall₂ (IndexVar S base) ks is) (hns : indexNames base ks ⊆ ns) :
    ∀ t ∈ is, Bare ns t := by
  intro t ht
  rcases exists_of_forall₂_right h ht with ⟨k, hk, hvar⟩
  exact (hvar.denotes ns (hns (mem_map_of_mem hk))).bare

theorem filterMap_indexVars (h : Forall₂ (IndexVar S base) ks is) :
    is.filterMap name? = indexNames base ks := by
  induction h with
  | nil => rfl
  | cons ht _ ih => rw [filterMap_cons_some ht.name, ih, indexNames, indexNames, map_cons]

theorem flatMap_indexVars (h : Forall₂ (IndexVar S base) ks is) (E : Env S.Value) :
    is.flatMap (S.values E) = (indexNames base ks).map E.value := by
  induction h with
  | nil => rfl
  | cons ht _ ih =>
    rw [flatMap_cons, ih, (ht.denotes _ (mem_singleton_self _)).values E,
      singleton_append, indexNames, indexNames, map_cons, map_cons]

theorem exists_indexVar_of_mem_zip (hi : Forall₂ (IndexVar S b) ks is)
    (hj : Forall₂ (IndexVar S c) ks js) {p : Term × Term} (hp : p ∈ is.zip js) :
    ∃ k ∈ ks, IndexVar S b k p.1 ∧ IndexVar S c k p.2 := by
  induction hi generalizing js with
  | nil => simp at hp
  | cons ht _ ih =>
    cases hj with
    | cons hu hrest =>
      rcases mem_cons.mp hp with rfl | hp
      · exact ⟨_, mem_cons_self, ht, hu⟩
      · rcases ih hrest hp with ⟨k, hk, hpk⟩
        exact ⟨k, mem_cons_of_mem _ hk, hpk⟩

theorem gives_plainSelect {m : Term} (hm : Denotes S ns m fun E => [f E])
    (his : ∀ i ∈ is, Bare ns i) :
    Gives (plainSelect m is)
      (Denotes S ns · fun E => [S.select is.length (f E :: is.flatMap (S.values E))]) := by
  refine gives_bind (gives_plain (by simp) .value his) fun index ⟨hhead, hcs, hbare⟩ => ?_
  intro s
  obtain ⟨hhead', hcs', hbare'⟩ := gives_plain (by simp : Op.mapSelect ≠ .all) .value
    (bare_pair hm.bare hbare) s
  have hop : index.op = .tuple := congrArg Head.op hhead
  refine ⟨hbare', fun E => ?_⟩
  rw [values_mapSelect hhead' hcs' hop, hm.values, values_tuple hop, hcs]
  rfl

theorem gives_mapUpdate {m v index : Term} {g : Env S.Value → S.Value}
    (hm : Denotes S ns m fun E => [f E]) (hv : Denotes S ns v fun E => [g E])
    (hop : index.op = .tuple) (hcs : index.children = is) (hbare : Bare ns index) :
    Gives (plain .mapUpdate .value [m, index, v]) (Denotes S ns · fun E =>
      [S.update is.length (f E :: (is.flatMap (S.values E) ++ [g E]))]) := by
  have hparts : ∀ c ∈ [m, index, v], Bare ns c := by simp [hm.bare, hbare, hv.bare]
  intro s
  rcases gives_plain (by simp : Op.mapUpdate ≠ .all) .value hparts s with ⟨hhead', hcs', hbare'⟩
  refine ⟨hbare', fun E => ?_⟩
  rw [values_mapUpdate hhead' hcs' hop, hm.values, hv.values,
    values_tuple hop, hcs]
  rfl

theorem differ_iff (hi : Forall₂ (IndexVar S b) ks is)
    (hj : Forall₂ (IndexVar S c) ks js) :
    (∃ p ∈ is.zip js, S.values E p.1 ≠ S.values E p.2) ↔
      is.flatMap (S.values E) ≠ js.flatMap (S.values E) := by
  induction hi generalizing js with
  | nil =>
    cases hj
    simp
  | cons ht _ ih =>
    cases hj with
    | cons hu hrest =>
      simp only [zip_cons_cons, mem_cons, exists_eq_or_imp, ih hrest, flatMap_cons,
        (ht.denotes _ (mem_singleton_self _)).values E,
        (hu.denotes _ (mem_singleton_self _)).values E, singleton_append, ne_eq,
        List.cons.injEq, and_true, not_and_or]

theorem gives_differs (hi : Forall₂ (IndexVar S b) ks is)
    (hj : Forall₂ (IndexVar S c) ks js) (hb : indexNames b ks ⊆ ns)
    (hc : indexNames c ks ⊆ ns) :
    Gives ((is.zip js).mapM (fun p => plain .neq .formula [p.1, p.2]) >>= plain .or .formula)
      (States S ns · fun E => (indexNames b ks).map E.value ≠ (indexNames c ks).map E.value) := by
  have hone : ∀ p ∈ is.zip js, Gives (plain .neq .formula [p.1, p.2])
      (States S ns · fun E => S.values E p.1 ≠ S.values E p.2) := by
    intro p hp s
    rcases exists_indexVar_of_mem_zip hi hj hp with ⟨k, hk, hpi, hpj⟩
    have hi' := hpi.denotes ns (hb (mem_map_of_mem hk))
    have hj' := hpj.denotes ns (hc (mem_map_of_mem hk))
    have hatom := gives_atom (by simp : Op.neq ∈ _) hi' hj' s
    refine ⟨hatom.bare, fun E => (hatom.holds E).trans ?_⟩
    rw [hi'.values E, hj'.values E]
    simp [Structure.atom]
  refine gives_bind (gives_mapM hone) fun ds hds => ?_
  have hds' : Forall₂ (States S ns) ds
      ((is.zip js).map fun p E => S.values E p.1 ≠ S.values E p.2) :=
    forall₂_map_right_iff.mpr hds.flip
  intro s
  have hor := gives_connective (by simp : Op.or ∈ _) hds' s
  refine ⟨hor.bare, fun E => (hor.holds E).trans ?_⟩
  rw [← flatMap_indexVars hi, ← flatMap_indexVars hj, ← differ_iff hi hj]
  change (∃ p ∈ ((is.zip js).map _).map _, p) ↔ _
  simp only [map_map, mem_map, Function.comp_apply, exists_exists_and_eq_and]

theorem length_indexNames (base : String) (n : Nat) :
    (indexNames base (List.range n)).length = n := by
  simp [indexNames]

theorem nodup_mapNames (n : Nat) :
    ("m" :: "v" :: indexNames "i" (List.range n) ++ indexNames "j" (List.range n)).Nodup := by
  have hindex : ∀ base, (indexNames base (List.range n)).Nodup := fun base =>
    nodup_range.map fun _ _ h => toString_nat_inj (String.append_right_inj _ |>.mp h)
  -- Names that start with different letters are different.
  have hletter : ∀ base c, base.toList = [c] → ∀ x ∈ indexNames base (List.range n),
      x.toList.head? = some c := by
    intro base c hbase x hx
    rcases mem_map.mp hx with ⟨k, _, rfl⟩
    rw [String.toList_append, hbase]
    rfl
  have hi := hletter "i" 'i' rfl
  have hj := hletter "j" 'j' rfl
  simp only [cons_append, nodup_cons, mem_cons, mem_append, not_or]
  refine ⟨⟨by decide, fun h => absurd (hi _ h) (by decide), fun h => absurd (hj _ h) (by decide)⟩,
    ⟨fun h => absurd (hi _ h) (by decide), fun h => absurd (hj _ h) (by decide)⟩,
    (hindex "i").append (hindex "j") fun x hxi hxj => ?_⟩
  exact absurd ((hi x hxi).symm.trans (hj x hxj)) (by decide)

/-- The axioms of map update say that maps with that number of indices are read as
    they were updated. -/
theorem gives_mapUpdateAxioms (S : Structure) (n : Nat) :
    Gives (Theory.mapUpdateAxioms n) fun as => ∃ same other, as = [same, other] ∧
      States S [] same (fun _ => S.ReadsBack n) ∧ States S [] other fun _ => S.KeepsOthers n := by
  -- The names over which the two axioms are quantified.
  obtain ⟨ns, hns⟩ : ∃ ns, ns = "m" :: "v" :: indexNames "i" (List.range n) := ⟨_, rfl⟩
  obtain ⟨ms, hms⟩ : ∃ ms, ms = ns ++ indexNames "j" (List.range n) := ⟨_, rfl⟩
  have hsub : ns ⊆ ms := by simp [hms]
  have hnodup : ms.Nodup := by
    rw [hms, hns]
    exact nodup_mapNames n
  unfold Theory.mapUpdateAxioms
  refine gives_bind (gives_var S (by simp [hns] : "m" ∈ ns) .value) fun m ⟨hnm, hm⟩ => ?_
  refine gives_bind (gives_var S (by simp [hns] : "v" ∈ ns) .value) fun v ⟨hnv, hv⟩ => ?_
  refine gives_bind (gives_indexVars S "i" n) fun is his => ?_
  refine gives_bind (gives_indexVars S "j" n) fun js hjs => ?_
  have hilen : is.length = n := his.length_eq.symm.trans length_range
  have hjlen : js.length = n := hjs.length_eq.symm.trans length_range
  have hisub : indexNames "i" (List.range n) ⊆ ns := by simp [hns]
  have hjsub : indexNames "j" (List.range n) ⊆ ms := by simp [hms]
  have hibare := bare_indexVars his hisub
  have hjbare := bare_indexVars hjs hjsub
  refine gives_bind (gives_plain (by simp) .value hibare) fun index ⟨hhead, hcs, hbare⟩ => ?_
  refine gives_bind (gives_mapUpdate hm hv (congrArg Head.op hhead) hcs hbare) fun updated hup => ?_
  -- At the updated position the map has the new value.
  refine gives_bind (gives_plainSelect hup hibare) fun readBack hback => ?_
  refine gives_bind (gives_atom (by simp) hback hv) fun back heq => ?_
  have hvars : ∀ t ∈ m :: v :: is, Bare ns t := by
    simpa [hm.bare, hv.bare] using hibare
  have hnames : (m :: v :: is).filterMap name? = ns := by
    rw [filterMap_cons_some hnm, filterMap_cons_some hnv, filterMap_indexVars his, hns]
  refine gives_bind (gives_plainAll hvars hnames heq) fun same hsame => ?_
  -- Anywhere else it has what the old map has.
  rw [← bind_assoc]
  refine gives_bind (gives_differs his hjs (List.Subset.trans hisub hsub) hjsub)
    fun differs hdiffers => ?_
  refine gives_bind (gives_plainSelect (hup.mono hsub) hjbare) fun readOther hother => ?_
  refine gives_bind (gives_plainSelect (hm.mono hsub) hjbare) fun readOld hold => ?_
  refine gives_bind (gives_atom (by simp) hother hold) fun unchanged hunchanged => ?_
  refine gives_bind (gives_implies hdiffers hunchanged) fun body hbody => ?_
  have hvars' : ∀ t ∈ m :: v :: (is ++ js), Bare ms t := by
    have hibare' := bare_indexVars his (List.Subset.trans hisub hsub)
    simpa [(hm.mono hsub).bare, (hv.mono hsub).bare, or_imp, forall_and] using ⟨hibare', hjbare⟩
  have hnames' : (m :: v :: (is ++ js)).filterMap name? = ms := by
    rw [← cons_append, ← cons_append, filterMap_append, hnames,
      filterMap_indexVars hjs, hms]
  refine gives_bind (gives_plainAll hvars' hnames' hbody) fun other hother => ?_
  refine gives_pure ⟨same, other, rfl, ⟨hsame.bare, fun E => (hsame.holds E).trans ?_⟩,
    ⟨hother.bare, fun E => (hother.holds E).trans ?_⟩⟩
  · simp only [Structure.atom, flatMap_indexVars his, hilen]
    refine ⟨fun h m is v hlen => ?_, fun h => Env.forAll_of_forall (fun E => h _ _ _ ?_) ns E⟩
    · rcases Env.exists_of_forAll (m :: v :: is) h (hnodup.sublist (by simp [hms]))
        (by simp [hns, hlen, length_indexNames]) with ⟨E', _, hvs, hE'⟩
      rw [hns, map_cons, map_cons, List.cons.injEq, List.cons.injEq] at hvs
      rcases hvs with ⟨rfl, rfl, rfl⟩
      exact hE'
    · rw [length_map, length_indexNames]
  · simp only [Structure.atom, flatMap_indexVars his, flatMap_indexVars hjs, hilen, hjlen]
    refine ⟨fun h m is js v hilen hjlen hne => ?_,
      fun h => Env.forAll_of_forall (fun E hne => h _ _ _ _ ?_ ?_ hne) ms E⟩
    · rcases Env.exists_of_forAll (m :: v :: is ++ js) h hnodup
        (by simp [hms, hns, hilen, hjlen, length_indexNames]) with ⟨E', _, hvs, hE'⟩
      rw [hms, map_append] at hvs
      rcases append_inj hvs (by simp [hns, hilen, length_indexNames]) with ⟨hfirst, rfl⟩
      rw [hns, map_cons, map_cons, List.cons.injEq, List.cons.injEq] at hfirst
      rcases hfirst with ⟨rfl, rfl, rfl⟩
      exact hE' hne
    · rw [length_map, length_indexNames]
    · rw [length_map, length_indexNames]

end Maps

/-! ### The axioms of a family -/

/-- What is made in a family: the axiom of an operator, the one of truth values, or
    the axioms of map update with some number of indices. -/
def Theory.familyBuilder : Nat → Fresh (List Term)
  | 1 => do return [← reflectAxiom .tlt .lt]
  | 2 => do return [← reflectAxiom .teq .eq]
  | 3 => do return [← reflectAxiom .teqInt .eq]
  | 4 => do return [← reflectAxiom .teqBool .eq]
  | 5 => do return [← nandAxiom]
  | 6 => do return [← literalAxiom]
  | f => mapUpdateAxioms (f - 6)

theorem Theory.familyBuilder_of_pos {k : Nat} (hk : 0 < k) :
    familyBuilder (6 + k) = mapUpdateAxioms k := by
  unfold familyBuilder
  split
  all_goals try omega
  congr 1
  omega

theorem Theory.schemas_standard : ∀ e ∈ standard.schemas, ∃ family : Nat → Nat,
    (∀ k, family k ≠ 0) ∧ ∀ cs, e.2 cs =
      pure (inFamily (family (indexArity cs)) (familyBuilder (family (indexArity cs)))) := by
  intro e he
  simp only [standard, mem_cons, not_mem_nil, or_false] at he
  rcases he with rfl | rfl | rfl | rfl | rfl | rfl
  · exact ⟨fun _ => 1, by simp, fun _ => rfl⟩
  · exact ⟨fun _ => 2, by simp, fun _ => rfl⟩
  · exact ⟨fun _ => 3, by simp, fun _ => rfl⟩
  · exact ⟨fun _ => 4, by simp, fun _ => rfl⟩
  · exact ⟨fun _ => 5, by simp, fun _ => rfl⟩
  · refine ⟨fun k => 6 + max k 1, fun _ => by simp, fun cs => ?_⟩
    have harity : 0 < max (indexArity cs) 1 := by omega
    rw [familyBuilder_of_pos harity]
    rfl

/-- What is made in the families holds in every standard structure. -/
theorem gives_familyBuilder {S : Structure} (hS : S.Standard) (f : Nat) :
    Gives (Theory.familyBuilder f) fun as => ∀ a ∈ as, States S [] a fun _ => True := by
  have hone : ∀ {m : Fresh Term}, Gives m (States S [] · fun _ => True) →
      Gives (do return [← m]) fun as => ∀ a ∈ as, States S [] a fun _ => True :=
    fun hm => gives_bind hm fun _ ha => gives_pure (by simpa using ha)
  unfold Theory.familyBuilder
  split
  · exact hone (gives_reflectAxiom (by simp) (by simp) hS.tlt)
  · exact hone (gives_reflectAxiom (by simp) (by simp) (hS.teq _ (by simp)))
  · exact hone (gives_reflectAxiom (by simp) (by simp) (hS.teq _ (by simp)))
  · exact hone (gives_reflectAxiom (by simp) (by simp) (hS.teq _ (by simp)))
  · exact hone (gives_nandAxiom hS)
  · exact hone (gives_literalAxiom hS)
  · intro s a ha
    rcases gives_mapUpdateAxioms S _ s with ⟨same, other, has, hsame, hother⟩
    rw [has, mem_pair] at ha
    rcases ha with rfl | rfl
    · exact hsame.of_forall fun _ => hS.readsBack _
    · exact hother.of_forall fun _ => hS.keepsOthers _

/-- The standard theory attaches only what holds in every standard structure,
    whatever names stand for, and has no free names. -/
theorem Structure.Standard.attaches {S : Structure} (hS : S.Standard) {A : Term → Prop}
    (hA : ∀ a, (∀ E, S.Holds a E) → (∀ n, ¬ Free n a) → A a) : Theory.standard.Attaches A := by
  have hmade : ∀ f, ∀ a ∈ Theory.inFamily f (Theory.familyBuilder f), A a ∧ Carries A a := by
    intro f a ha
    have h := gives_familyBuilder hS f _ a ha
    exact ⟨hA a (fun E => (h.holds E).mpr trivial) fun n hn => not_mem_nil (h.bare.free n hn),
      h.bare.carries.of_none A⟩
  refine ⟨fun e he cs => ?_, hmade 6⟩
  rcases Theory.schemas_standard e he with ⟨family, _, hrun⟩
  rw [hrun]
  exact gives_pure (hmade _)

end Vouch
