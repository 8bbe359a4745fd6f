import Vouch.Proofs.Term.Background
import Vouch.Proofs.Term.Text

/-!
# Reading Updated Maps

The prover connects an axiom and a term by the symbols they are printed with. The
symbols of map operations are made while printing, out of the number of indices, and the
axioms are made for a number that is computed when the term is built.

## Main definitions

* `Theory.mapUpdateTexts`: The axioms of map update as they are printed.

## Theorems

* `updated_maps_decided`: Wherever the axioms hold, the updated position has the new
  value and every other one has the old.
-/

namespace Vouch

open List Term Structure

/-! ### The texts of the axioms -/

/-- A quantified formula as it is printed. -/
def quantified (names : List String) (body : String) : String :=
  "(FORALL (" ++ spaced names ++ ") " ++ body ++ ")"

/-- The axioms of map update as they are printed. -/
def Theory.mapUpdateTexts (n : Nat) : List String :=
  let is := indexNames "i" (List.range n)
  let js := indexNames "j" (List.range n)
  let select := "MAP_SELECT" ++ toString n
  let updated := applied ("MAP_UPDATE" ++ toString n) ["m", spaced is, "v"]
  [quantified ("m" :: "v" :: is) (applied "EQ" [applied select [updated, spaced is], "v"]),
    quantified ("m" :: "v" :: (is ++ js)) (applied "IMPLIES" [
      applied "OR" (is.zipWith (fun i j => applied "NEQ" [i, j]) js),
      applied "EQ" [applied select [updated, spaced js], applied select ["m", spaced js]]])]

example : Theory.mapUpdateTexts 1 =
    ["(FORALL (m v i0) (EQ (MAP_SELECT1 (MAP_UPDATE1 m i0 v) i0) v))",
      "(FORALL (m v i0 j0) (IMPLIES (OR (NEQ i0 j0)) " ++
        "(EQ (MAP_SELECT1 (MAP_UPDATE1 m i0 v) j0) (MAP_SELECT1 m j0))))"] := by
  decide +kernel

section Texts

variable {op : Op} {sort : TermSort} {cs is js : List Term} {m v t index : Term}

/-- The term lists the indices of a map operation. -/
structure Term.Lists (is : List Term) (index : Term) : Prop where
  op : index.op = .tuple
  children : index.children = is

theorem Term.Lists.text_eq (h : Lists is index) : index.text = spaced (is.map text) := by
  obtain ⟨hop, rfl⟩ := h
  obtain ⟨id, ⟨op, sort, payload⟩, cs, as⟩ := index
  change op = .tuple at hop
  subst hop
  rw [text, texts_eq_map, Term.children]

theorem Term.text_mapSelect (h : t.head = { op := .mapSelect, sort })
    (hcs : t.children = [m, index]) (hindex : Lists is index) :
    t.text = applied ("MAP_SELECT" ++ toString is.length) [m.text, spaced (is.map text)] := by
  obtain ⟨id, hd, cs, as⟩ := t
  change hd = _ at h
  change cs = _ at hcs
  subst h hcs
  rw [text, texts_eq_map, ← hindex.text_eq]
  simp [indexArity, hindex.op, hindex.children]

theorem Term.text_mapUpdate (h : t.head = { op := .mapUpdate, sort })
    (hcs : t.children = [m, index, v]) (hindex : Lists is index) :
    t.text =
      applied ("MAP_UPDATE" ++ toString is.length) [m.text, spaced (is.map text), v.text] := by
  obtain ⟨id, hd, cs, as⟩ := t
  change hd = _ at h
  change cs = _ at hcs
  subst h hcs
  rw [text, texts_eq_map, ← hindex.text_eq]
  simp [indexArity, hindex.op, hindex.children]

theorem gives_text {text : String}
    (h : ∀ id, (Term.node id { op, sort } cs []).text = text) :
    Gives (plain op sort cs) (·.text = text) :=
  fun _ => h _

theorem gives_text_operator (hop : op ∈ [Op.eq, .neq, .implies]) :
    Gives (plain op sort cs) (·.text = applied op.keyword (cs.map text)) := by
  refine gives_text fun id => ?_
  simp only [mem_cons, not_mem_nil, or_false] at hop
  rcases hop with rfl | rfl | rfl <;> rw [text, texts_eq_map]

theorem gives_lists (is : List Term) : Gives (plain .tuple .value is) (Lists is) :=
  fun _ => ⟨rfl, rfl⟩

theorem gives_text_plainSelect : Gives (plainSelect m is)
    (·.text = applied ("MAP_SELECT" ++ toString is.length) [m.text, spaced (is.map text)]) :=
  gives_bind (gives_lists is) fun _ hindex _ => text_mapSelect rfl rfl hindex

theorem gives_text_mapUpdate (hindex : Lists is index) :
    Gives (plain .mapUpdate .value [m, index, v]) (·.text =
      applied ("MAP_UPDATE" ++ toString is.length) [m.text, spaced (is.map text), v.text]) :=
  fun _ => text_mapUpdate rfl rfl hindex

theorem gives_text_plainAll {names : List String} (hnames : cs.map text = names) :
    Gives (plainAll cs v) (·.text = quantified names v.text) := by
  refine gives_text fun id => ?_
  rw [text, texts_eq_map, map_append, hnames]
  simp [quantified, spaced]

theorem gives_text_indexVars (base : String) (n : Nat) :
    Gives (Theory.indexVars base n) fun ts => ts.map text = indexNames base (List.range n) := by
  intro s
  rw [indexNames, ← forall₂_eq_eq_eq, forall₂_map_left_iff, forall₂_map_right_iff]
  exact (gives_mapM (R := fun k t => text t = base ++ toString k) (fun k _ _ => rfl) s).flip

theorem gives_text_differs (his : is ≠ []) (hlen : is.length = js.length) :
    Gives ((is.zip js).mapM (fun p => plain .neq .formula [p.1, p.2]) >>= plain .or .formula)
      (·.text = applied "OR"
        ((is.map text).zipWith (fun i j => applied "NEQ" [i, j]) (js.map text))) := by
  refine gives_bind (gives_mapM fun p _ => gives_text_operator (by simp)) fun ds hds => ?_
  have hds' : ds.map text = (is.zip js).map fun p => applied "NEQ" [p.1.text, p.2.text] := by
    rw [← forall₂_eq_eq_eq, forall₂_map_left_iff, forall₂_map_right_iff]
    exact hds.flip
  have hne : ds.isEmpty = false := by
    rw [isEmpty_eq_false_iff, ← length_pos_iff, ← hds.length_eq, length_zip, ← hlen,
      Nat.min_self]
    exact length_pos_iff.mpr his
  refine gives_text fun id => ?_
  rw [text, texts_eq_map, hds']
  simp [hne, List.zip, map_zipWith, zipWith_map]

end Texts

theorem text_mapUpdateAxioms {n : Nat} (hn : 0 < n) : Gives (Theory.mapUpdateAxioms n) fun as =>
    as.map text = Theory.mapUpdateTexts n := by
  unfold Theory.mapUpdateAxioms
  refine gives_bind (P := (·.text = "m")) (fun _ => rfl) fun m hm => ?_
  refine gives_bind (P := (·.text = "v")) (fun _ => rfl) fun v hv => ?_
  refine gives_bind (gives_text_indexVars "i" n) fun is his => ?_
  refine gives_bind (gives_text_indexVars "j" n) fun js hjs => ?_
  have hilen : is.length = n := by rw [← length_map text, his, length_indexNames]
  have hjlen : js.length = n := by rw [← length_map text, hjs, length_indexNames]
  have hne : is ≠ [] := length_pos_iff.mp (hilen ▸ hn)
  refine gives_bind (gives_lists is) fun index hindex => ?_
  refine gives_bind (gives_text_mapUpdate hindex) fun updated hupdated => ?_
  refine gives_bind gives_text_plainSelect fun readBack hback => ?_
  refine gives_bind (gives_text_operator (by simp)) fun back heq => ?_
  refine gives_bind (gives_text_plainAll rfl) fun same hsame => ?_
  rw [← bind_assoc]
  refine gives_bind (gives_text_differs hne (hilen.trans hjlen.symm)) fun differs hdiffers => ?_
  refine gives_bind gives_text_plainSelect fun readOther hother => ?_
  refine gives_bind gives_text_plainSelect fun readOld hold => ?_
  refine gives_bind (gives_text_operator (by simp)) fun unchanged hunchanged => ?_
  refine gives_bind (gives_text_operator (by simp)) fun body hbody => ?_
  refine gives_bind (gives_text_plainAll rfl) fun other hall => gives_pure ?_
  simp [Theory.mapUpdateTexts, hall, hbody, hunchanged, hold, hother, hdiffers, hsame, heq, hback,
    hupdated, hm, hv, his, hjs, hilen, hjlen, Op.keyword]

/-! ### What they say about a term -/

section Updates

variable {S : Structure} {E : Env S.Value} {m v u t : Term} {is : List Term}

theorem Structure.exists_value (h : t.op ≠ .tuple) : ∃ x, S.values E t = [x] := by
  obtain ⟨id, ⟨op, sort, payload⟩, cs, as⟩ := t
  change op ≠ .tuple at h
  rw [values]
  split
  · exact ⟨_, rfl⟩
  · next heq => exact absurd heq h
  · exact ⟨_, rfl⟩

theorem Structure.exists_values : ∀ {ts : List Term}, (∀ t ∈ ts, t.op ≠ .tuple) →
    ∃ xs, xs.length = ts.length ∧ ts.map (S.values E) = xs.map ([·]) ∧
      ts.flatMap (S.values E) = xs
  | [], _ => ⟨[], rfl, rfl, rfl⟩
  | t :: ts, h => by
    rcases exists_value (E := E) (h t mem_cons_self) with ⟨x, hx⟩
    rcases exists_values (forall_mem_cons.mp h).2 with ⟨xs, hlen, hmap, hflat⟩
    refine ⟨x :: xs, ?_, ?_, ?_⟩
    · rw [length_cons, length_cons, hlen]
    · rw [map_cons, map_cons, hx, hmap]
    · rw [flatMap_cons, hx, hflat, singleton_append]

theorem gives_update (m : Term) (is : List Term) (v : Term) :
    Gives (Theory.standard.update m is v) fun u =>
      u.axioms =
        Theory.inFamily (6 + max is.length 1) (Theory.mapUpdateAxioms (max is.length 1)) ∧
      u.head = { op := .mapUpdate, sort := .value } ∧
      ∃ index, u.children = [m, index, v] ∧ Lists is index :=
  fun _ => ⟨rfl, rfl, _, rfl, rfl, rfl⟩

theorem gives_select (m : Term) (is : List Term) (sort : TermSort) :
    Gives (Theory.standard.select m is sort) fun t => t.head = { op := .mapSelect, sort } ∧
      ∃ index, t.children = [m, index] ∧ Lists is index :=
  fun _ => ⟨rfl, _, rfl, rfl, rfl⟩

theorem values_select (m : Term) (is : List Term) (sort : TermSort) (E : Env S.Value) :
    Gives (Theory.standard.select m is sort) fun t => S.values E t =
      [S.select is.length (S.values E m ++ is.flatMap (S.values E))] := by
  intro s
  rcases gives_select m is sort s with ⟨hhead, index, hcs, hindex⟩
  rw [values_mapSelect hhead hcs hindex.op, values_tuple hindex.op,
    hindex.children]

theorem values_update (m : Term) (is : List Term) (v : Term) (E : Env S.Value) :
    Gives (Theory.standard.update m is v) fun u => S.values E u =
      [S.update is.length (S.values E m ++ (is.flatMap (S.values E) ++ S.values E v))] := by
  intro s
  rcases gives_update m is v s with ⟨_, hhead, index, hcs, hindex⟩
  rw [values_mapUpdate hhead hcs hindex.op, values_tuple hindex.op,
    hindex.children]

theorem holds_axioms_iff (m v : Term) (is : List Term) (E : Env S.Value) (hpos : 0 < is.length) :
    Gives (Theory.standard.update m is v) fun u =>
      (∀ a ∈ u.axioms, S.Holds a E) ↔ S.ReadsBack is.length ∧ S.KeepsOthers is.length := by
  intro s
  rcases gives_mapUpdateAxioms S is.length { family := 6 + is.length } with
    ⟨same, other, has, hsame, hother⟩
  have haxioms := (gives_update m is v s).1
  rw [max_eq_left hpos, Theory.inFamily, has] at haxioms
  rw [haxioms]
  simp [hsame.holds, hother.holds]

/-- The axioms that come with an update are the same nodes for every update with as
    many indices. They are printed with the symbols of the term, except that a map
    without indices has the axioms of one index. If there is an index then wherever
    they hold, reading the map at the indices of the update gives the new value and
    reading it at others gives what the old map has. -/
theorem updated_maps_decided (m v : Term) (is js : List Term) (supply : Supply)
    (hu : ((Theory.standard.update m is v).run supply).1 = u)
    (hlen : js.length = is.length) (hops : ∀ t ∈ m :: v :: (is ++ js), t.op ≠ .tuple) :
    (∀ m' is' v' supply', is'.length = is.length →
      ((Theory.standard.update m' is' v').run supply').1.axioms = u.axioms) ∧
    u.text = applied ("MAP_UPDATE" ++ toString is.length) [m.text, spaced (is.map text), v.text] ∧
    u.axioms.map text = Theory.mapUpdateTexts (max is.length 1) ∧
    (0 < is.length → ∀ (S : Structure) (E : Env S.Value), (∀ a ∈ u.axioms, S.Holds a E) →
      ∀ (sort : TermSort) (s : Supply),
        S.values E ((Theory.standard.select u is sort).run s).1 = S.values E v ∧
        (is.map (S.values E) ≠ js.map (S.values E) →
          S.values E ((Theory.standard.select u js sort).run s).1 =
            S.values E ((Theory.standard.select m js sort).run s).1)) := by
  subst hu
  obtain ⟨haxioms, hhead, index, hcs, hindex⟩ := gives_update m is v supply
  refine ⟨fun m' is' v' supply' h => ?_, text_mapUpdate hhead hcs hindex, ?_,
    fun hpos S E hholds sort s => ?_⟩
  · rw [haxioms, (gives_update m' is' v' supply').1, h]
  · rw [haxioms]
    exact text_mapUpdateAxioms (by omega) _
  · rcases (holds_axioms_iff m v is E hpos supply).mp hholds with ⟨hback, hothers⟩
    simp only [forall_mem_cons, forall_mem_append] at hops
    rcases exists_value (E := E) hops.1 with ⟨x, hx⟩
    rcases exists_value (E := E) hops.2.1 with ⟨y, hy⟩
    rcases exists_values (E := E) hops.2.2.1 with ⟨ks, hkslen, hksmap, hks⟩
    rcases exists_values (E := E) hops.2.2.2 with ⟨ls, hlslen, hlsmap, hls⟩
    have hupdated := values_update m is v E supply
    rw [hx, hy, hks, singleton_append] at hupdated
    constructor
    · rw [values_select _ _ _ _ s, hupdated, hks, hy, singleton_append, hback x ks y hkslen]
    · intro hne
      rw [hksmap, hlsmap] at hne
      rw [values_select _ _ _ _ s, values_select _ _ _ _ s, hupdated, hx, hls, hlen,
        singleton_append, singleton_append,
        hothers x ks ls y hkslen (hlslen.trans hlen) fun h => hne (congrArg _ h)]

/-- A map is updated at one variable and read at another. -/
theorem updated_maps_decided_variables : ∃ m i j v u : Term, u.text = "(MAP_UPDATE1 a i x)" ∧
    u.axioms.map text = Theory.mapUpdateTexts 1 ∧
    ∀ (E : Env Structure.trees.Value) (s : Supply), E.value "i" ≠ E.value "j" →
      Structure.trees.values E ((Theory.standard.select u [i] .value).run s).1 =
        Structure.trees.values E v ∧
      Structure.trees.values E ((Theory.standard.select u [j] .value).run s).1 =
        Structure.trees.values E ((Theory.standard.select m [j] .value).run s).1 := by
  have hvar : ∀ n, ∃ t : Term, t.op = .var ∧ t.text = n ∧
      ∀ E : Env Structure.trees.Value, Structure.trees.values E t = [E.value n] :=
    fun n => ⟨((Term.var n .value).run {}).1, rfl, rfl, fun E => values_var rfl E⟩
  rcases hvar "a" with ⟨m, hm, hmtext, -⟩
  rcases hvar "i" with ⟨i, hi, hitext, hivalue⟩
  rcases hvar "j" with ⟨j, hj, -, hjvalue⟩
  rcases hvar "x" with ⟨v, hv, hvtext, -⟩
  obtain ⟨-, htext, haxioms, hreads⟩ := updated_maps_decided m v [i] [j] {} rfl rfl
    (by simp [hm, hi, hj, hv])
  refine ⟨m, i, j, v, _, htext.trans ?_, haxioms, fun E s hne => ?_⟩
  · rw [hmtext, map_singleton, hitext, hvtext, length_singleton]
    decide +kernel
  · have hholds := (holds_axioms_iff m v [i] E (by simp) {}).mpr
      ⟨standard_trees.readsBack _, standard_trees.keepsOthers _⟩
    rcases hreads (by simp) Structure.trees E hholds .value s with ⟨hsame, hother⟩
    exact ⟨hsame, hother (by simpa [hivalue, hjvalue] using hne)⟩

end Updates

end Vouch
