import Vouch.Proofs.Flow.Body
import Vouch.Proofs.Flow.Embedding

/-!
# Replacing Commands by Commands

A body is rewritten by putting several commands where there was one. The first of them
has the labels of the old command, so every jump to it arrives there, and the last of
them jumps where it jumped; the others are passed one after the other.

## Main definitions

* `Command.Becomes`: Commands that may stand for a command.
* `Body.Expansion`: Every command of a body replaced.
* `Body.Expansion.embedding`: The old graph is in the new one.

## Theorems

* `Body.Expansion.exists_ofBody`: The new body has a graph.
* `Body.Expansion.successors_image_eq`: Edges lead to where the old ones lead.
* `Body.Expansion.backEdges_cut`: The same edges are cut.
-/

namespace Vouch

open List

namespace Body

section Labels

/-- Add a label to a table that does not have it. -/
def addLabel (table : NameMap Nat) (p : String × Nat) : Except FlowError (NameMap Nat) :=
  if table.contains p.1 then throw (.duplicateLabel p.1) else return table.insert p.1 p.2

variable {p : String × Nat}

theorem addLabel_eq_ok_iff {table labels : NameMap Nat} :
    addLabel table p = .ok labels ↔ table.find? p.1 = none ∧ labels = table.insert p.1 p.2 := by
  unfold addLabel NameMap.contains
  cases table.find? p.1 <;> simp [throw, throwThe, MonadExceptOf.throw, pure, Except.pure, eq_comm]

theorem foldlM_addLabel_eq_ok_iff {labels : NameMap Nat} : ∀ {pairs : List (String × Nat)}
    {table : NameMap Nat}, pairs.foldlM addLabel table = .ok labels ↔
      (pairs.map (·.1)).Nodup ∧ (∀ p ∈ pairs, table.find? p.1 = none) ∧
        labels = table.insertAll pairs
  | [], table => by simp [pure, Except.pure, NameMap.insertAll, eq_comm]
  | p :: pairs, table => by
    simp only [foldlM_cons, bind_eq_ok_iff, addLabel_eq_ok_iff, map_cons,
      nodup_cons, mem_map, forall_mem_cons]
    constructor
    · rintro ⟨_, ⟨hp, rfl⟩, h⟩
      rcases foldlM_addLabel_eq_ok_iff.mp h with ⟨hnodup, hnew, rfl⟩
      have hnew := fun q hq => NameMap.find?_insert_eq_none_iff.mp (hnew q hq)
      refine ⟨⟨?_, hnodup⟩, ⟨hp, fun q hq => (hnew q hq).2⟩, rfl⟩
      rintro ⟨q, hq, heq⟩
      exact (hnew q hq).1 heq
    · rintro ⟨⟨hp, hnodup⟩, ⟨hfirst, hnew⟩, rfl⟩
      refine ⟨_, ⟨hfirst, rfl⟩, foldlM_addLabel_eq_ok_iff.mpr ⟨hnodup, fun q hq => ?_, rfl⟩⟩
      exact NameMap.find?_insert_eq_none_iff.mpr ⟨fun heq => hp ⟨q, hq, heq⟩, hnew q hq⟩

variable {body : Body} {labels : NameMap Nat}

theorem labelTable_eq_ok_iff : body.labelTable = .ok labels ↔
    (body.labelled.map (·.1)).Nodup ∧ labels = .ofList body.labelled := by
  have hempty : ∀ p ∈ body.labelled, (∅ : NameMap Nat).find? p.1 = none := fun _ _ => rfl
  refine (foldlM_addLabel_eq_ok_iff : body.labelled.foldlM addLabel ∅ = .ok labels ↔ _).trans ?_
  exact and_congr_right fun _ => and_iff_right hempty

theorem find?_labelTable (h : body.labelTable = .ok labels) {x : String} {v : Nat} :
    labels.find? x = some v ↔ (x, v) ∈ body.labelled := by
  rcases labelTable_eq_ok_iff.mp h with ⟨hnodup, rfl⟩
  exact NameMap.find?_ofList hnodup

/-- Every label with the command it stands at, the first command having the given
    number. -/
def labelledFrom (k : Nat) (body : Body) : List (String × Nat) :=
  (body.zipIdx k).flatMap fun p => p.1.labels.map (·, p.2)

theorem labelledFrom_cons (k : Nat) (c : Command) (body : Body) :
    labelledFrom k (c :: body) = c.labels.map (·, k) ++ labelledFrom (k + 1) body := by
  rw [labelledFrom, zipIdx_cons, flatMap_cons]
  rfl

theorem labelledFrom_append (k : Nat) (body body' : Body) :
    labelledFrom k (body ++ body') =
      labelledFrom k body ++ labelledFrom (k + body.length) body' := by
  rw [labelledFrom, zipIdx_append, flatMap_append]
  rfl

theorem labelledFrom_eq_nil {k : Nat} {body : Body} (h : ∀ c ∈ body, c.labels = []) :
    labelledFrom k body = [] := by
  refine flatMap_eq_nil_iff.mpr fun p hp => ?_
  rw [h p.1 (fst_mem_of_mem_zipIdx hp), map_nil]

theorem map_fst_labelledFrom (k : Nat) (body : Body) :
    (labelledFrom k body).map (·.1) = body.flatMap (·.labels) := by
  induction body generalizing k with
  | nil => rfl
  | cons c cs ih =>
    rw [labelledFrom_cons, map_append, ih, flatMap_cons, map_map]
    simp [Function.comp_def]

theorem map_fst_labelled (body : Body) : body.labelled.map (·.1) = body.flatMap (·.labels) :=
  map_fst_labelledFrom 0 body

theorem mem_labelled_iff {x : String} {v : Nat} :
    (x, v) ∈ body.labelled ↔ ∃ c, body[v]? = some c ∧ x ∈ c.labels := by
  simp [labelled, mem_zipIdx_iff_getElem?]

theorem lt_length_of_mem_labelled (h : p ∈ body.labelled) : p.2 < body.length := by
  rcases mem_labelled_iff.mp h with ⟨c, hc, _⟩
  exact (List.getElem?_eq_some_iff.mp hc).1

end Labels

end Body

/-- Where an action jumps to, if it is a jump. -/
def Action.jump? : Action → Option (List String)
  | .goto names => some names
  | _ => none

namespace Command

theorem resolved_iff {labels : NameMap Nat} {c : Command} : c.Resolved labels ↔
    ∀ names, c.action.jump? = some names → ∀ x ∈ names, (labels.find? x).isSome := by
  unfold Resolved Action.jump?
  cases c.action <;> simp

/-- Jumps that leave the routine go to the exit, if there is one. -/
def leaving (exit : Option String) (names : List String) : List String :=
  if names.isEmpty then exit.toList else names

@[simp]
theorem leaving_none : leaving none = id := by
  funext names
  cases names <;> rfl

/-- Commands that may stand for a command: the first has its labels, and the last
    jumps where it does. -/
inductive Becomes (exit : Option String) : Command → List Command → Prop where
  | last {c d : Command} : d.labels = c.labels →
      d.action.jump? = c.action.jump?.map (leaving exit) → Becomes exit c [d]
  | before {c d : Command} {ds : List Command} : d.labels = c.labels → d.action.jump? = none →
      Becomes exit { c with labels := [] } ds → Becomes exit c (d :: ds)

namespace Becomes

variable {exit : Option String} {c : Command} {ds : List Command}

theorem length_pos (h : Becomes exit c ds) : 0 < ds.length := by
  cases h <;> simp

theorem labelledFrom (h : Becomes exit c ds) (k : Nat) :
    Body.labelledFrom k ds = c.labels.map (·, k) := by
  induction h generalizing k with
  | last hlabels _ =>
    rw [Body.labelledFrom_cons, hlabels]
    exact append_nil _
  | before hlabels _ _ ih =>
    rw [Body.labelledFrom_cons, hlabels, ih (k + 1)]
    exact append_nil _

variable {d : Command}

theorem getElem? (h : Becomes exit c ds) {i : Nat} (hd : ds[i]? = some d) :
    d.action.jump? = if i + 1 = ds.length then c.action.jump?.map (leaving exit) else none := by
  induction h generalizing i with
  | last _ hjump =>
    cases i with
    | zero =>
      obtain rfl := by simpa using hd
      simpa using hjump
    | succ i => simp at hd
  | @before c e ds _ hjump hrest ih =>
    have hpos := hrest.length_pos
    cases i with
    | zero =>
      obtain rfl : e = d := by simpa using hd
      rw [hjump, if_neg (by rw [length_cons]; omega)]
    | succ i =>
      rw [ih (by simpa using hd)]
      simp

theorem trans (hlabels : d.labels = c.labels)
    (hjump : d.action.jump? = c.action.jump?.map (leaving exit)) (hd : Becomes none d ds) :
    Becomes exit c ds := by
  induction hd generalizing c with
  | last hlabels' hjump' =>
    rw [leaving_none, Option.map_id_fun, id] at hjump'
    exact .last (hlabels'.trans hlabels) (hjump'.trans hjump)
  | before hlabels' hjump' _ ih =>
    exact .before (hlabels'.trans hlabels) hjump' (ih (c := { c with labels := [] }) rfl hjump)

theorem append {es : List Command} (hlabels : d.labels = c.labels) (hjump : d.action.jump? = none)
    (hd : Becomes none d es) (hrest : Becomes exit { c with labels := [] } ds) :
    Becomes exit c (es ++ ds) := by
  induction hd generalizing c with
  | last hlabels' hjump' =>
    rw [hjump, Option.map_none] at hjump'
    exact .before (hlabels'.trans hlabels) hjump' hrest
  | before hlabels' hjump' _ ih =>
    exact .before (hlabels'.trans hlabels) hjump'
      (ih (c := { c with labels := [] }) rfl hjump hrest)

theorem flatten {dss : List (List Command)} (h : Becomes exit c ds)
    (hds : Forall₂ (Becomes none) ds dss) : Becomes exit c dss.flatten := by
  induction h generalizing dss with
  | last hlabels hjump =>
    cases hds with
    | cons hes hnil =>
      cases hnil
      rw [flatten_cons, flatten_nil, append_nil]
      exact .trans hlabels hjump hes
  | before hlabels hjump _ ih =>
    cases hds with
    | cons hes hrest => exact .append hlabels hjump hes (ih hrest)

end Becomes

end Command

namespace FlowGraph

theorem addTarget_map {f : Nat → Nat} {out : List Nat} {v : Nat}
    (hf : ∀ x ∈ out, f x = f v → x = v) :
    addTarget (out.map f) (f v) = (addTarget out v).map f := by
  have hmem : f v ∈ out.map f ↔ v ∈ out := by
    refine ⟨fun h => ?_, mem_map_of_mem⟩
    obtain ⟨x, hx, heq⟩ := mem_map.mp h
    exact hf x hx heq ▸ hx
  unfold addTarget
  by_cases hv : v ∈ out
  · rw [if_pos hv, if_pos (hmem.mpr hv)]
  · rw [if_neg hv, if_neg fun h => hv (hmem.mp h), map_append, map_singleton]

theorem targets_map {f : Nat → Nat} {vs : List Nat}
    (hf : ∀ x ∈ vs, ∀ y ∈ vs, f x = f y → x = y) : targets (vs.map f) = (targets vs).map f := by
  have hfoldl : ∀ (vs out : List Nat), (∀ x ∈ out ++ vs, ∀ y ∈ vs, f x = f y → x = y) →
      (vs.map f).foldl addTarget (out.map f) = (vs.foldl addTarget out).map f := by
    intro vs
    induction vs with
    | nil => exact fun _ _ => rfl
    | cons v vs ih =>
      intro out hf
      rw [map_cons, foldl_cons, foldl_cons,
        addTarget_map fun x hx => hf x (by simp [hx]) v (by simp)]
      refine ih _ fun x hx y hy => hf x ?_ y (by simp [hy])
      rw [mem_append, mem_addTarget] at hx
      rw [mem_append, mem_cons, ← or_assoc]
      exact hx
  exact hfoldl vs [] hf

section Successors

variable {body : Body} {g : FlowGraph} (hg : ofBody body = .ok g) {v : Nat} {c : Command}
  (hc : body[v]? = some c)
include hg hc

theorem successors_of_not_jump (hjump : c.action.jump? = none) :
    g.successors v = if v + 1 < body.length then [v + 1] else [] := by
  rcases ofBody_eq_ok_iff.mp hg with ⟨labels, hlabels, _⟩
  have hnext : c.next body.length labels v = if v + 1 < body.length then [v + 1] else [] := by
    unfold Action.jump? at hjump
    unfold Command.next
    cases hact : c.action with
    | goto names => simp [hact] at hjump
    | _ => rfl
  rw [successors_ofBody hg hlabels hc, hnext]
  by_cases hlt : v + 1 < body.length <;> simp [hlt, targets, addTarget]

theorem successors_of_jump {labels : NameMap Nat} (hlabels : body.labelTable = .ok labels)
    {names : List String} (hjump : c.action.jump? = some names) :
    g.successors v = targets (names.map fun x => (labels.find? x).getD 0) ∧
      ∀ x ∈ names, ∃ u < body.length, labels.find? x = some u := by
  rcases ofBody_eq_ok_iff.mp hg with ⟨labels₀, hlabels₀, hres, _⟩
  obtain rfl : labels = labels₀ := by simpa [hlabels] using hlabels₀
  have hplaces : ∀ x ∈ names, ∃ u < body.length, labels.find? x = some u := by
    intro x hx
    have hsome := Command.resolved_iff.mp (hres c (mem_of_getElem? hc)) names hjump x hx
    obtain ⟨u, hu⟩ := Option.isSome_iff_exists.mp hsome
    exact ⟨u, Body.lt_length_of_mem_labelled ((Body.find?_labelTable hlabels).mp hu), hu⟩
  have hnext : c.next body.length labels v = names.map fun x => (labels.find? x).getD 0 := by
    unfold Action.jump? at hjump
    unfold Command.next
    cases hact : c.action with
    | goto names' =>
      obtain rfl : names' = names := by simpa [hact] using hjump
      rfl
    | _ => simp [hact] at hjump
  refine ⟨?_, hplaces⟩
  rw [successors_ofBody hg hlabels hc, hnext, filter_eq_self.mpr]
  intro u hu
  obtain ⟨x, hx, rfl⟩ := mem_map.mp hu
  obtain ⟨u, hu, hfind⟩ := hplaces x hx
  simpa [hfind] using hu

end Successors

end FlowGraph

namespace Body

/-- What comes after the last command: nothing, or a block with the exit label on
    its first command. -/
inductive Ending : Option String → List Command → Prop where
  | empty : Ending none []
  | block {label : String} {d : Command} {ds : List Command} : d.labels = [label] →
      (∀ e ∈ ds, e.labels = []) → (∀ e ∈ d :: ds, e.action.jump? = none) →
      Ending (some label) (d :: ds)

variable {back : List Command} {exit : Option String}

theorem Ending.jump? (h : Ending exit back) : ∀ d ∈ back, d.action.jump? = none := by
  cases h with
  | empty => simp
  | block _ _ hjump => exact hjump

theorem Ending.cases (h : Ending exit back) :
    (exit = none ∧ back = []) ∨ ∃ label, exit = some label ∧ back ≠ [] := by
  cases h with
  | empty => exact Or.inl ⟨rfl, rfl⟩
  | block => exact Or.inr ⟨_, rfl, cons_ne_nil _ _⟩

theorem Ending.labelledFrom (h : Ending exit back) (k : Nat) :
    Body.labelledFrom k back = exit.toList.map (·, k) := by
  cases h with
  | empty => rfl
  | block hlabels hrest _ =>
    rw [labelledFrom_cons, hlabels, labelledFrom_eq_nil hrest]
    rfl

/-- Every command of a body replaced, with commands before all others and a block
    after them. -/
structure Expansion (body : Body) where
  front : List Command
  /-- What stands for each command. -/
  pieces : List (List Command)
  back : List Command
  /-- The label of the block. -/
  exit : Option String
  front_labels : ∀ c ∈ front, c.labels = []
  front_jump : ∀ c ∈ front, c.action.jump? = none
  becomes : Forall₂ (Command.Becomes exit) body pieces
  ending : Ending exit back

namespace Expansion

variable {body : Body} (X : Expansion body)

/-- The body with every command replaced. -/
def result : Body :=
  X.front ++ (X.pieces.flatten ++ X.back)

/-- Where what stands for a command starts. -/
def start (v : Nat) : Nat :=
  X.front.length + (X.pieces.take v).flatten.length

/-- Where the last command that stands for a command is. -/
def image (v : Nat) : Nat :=
  X.start (v + 1) - 1

/-- The places of the commands that stand for a command. -/
def places (v : Nat) : List Nat :=
  List.range' (X.start v) (X.start (v + 1) - X.start v)

theorem length_pieces : X.pieces.length = body.length :=
  X.becomes.length_eq.symm

section Places

variable {X} {v : Nat} {c : Command}

theorem exists_piece (hc : body[v]? = some c) :
    ∃ piece, X.pieces[v]? = some piece ∧ Command.Becomes X.exit c piece := by
  obtain ⟨hv, rfl⟩ := List.getElem?_eq_some_iff.mp hc
  have hv' : v < X.pieces.length := X.length_pieces ▸ hv
  exact ⟨_, getElem?_eq_getElem hv', X.becomes.get hv hv'⟩

variable {piece : List Command} {u : Nat}

theorem start_succ (hpiece : X.pieces[v]? = some piece) :
    X.start (v + 1) = X.start v + piece.length := by
  unfold start
  rw [take_add_one, hpiece, Option.toList_some, flatten_append, length_append,
    flatten_singleton, Nat.add_assoc]

theorem start_le_start (h : u ≤ v) : X.start u ≤ X.start v := by
  unfold start
  rw [← Nat.add_sub_cancel' h, take_add, flatten_append, length_append]
  omega

theorem start_succ_le (h : u < v) : X.start (u + 1) ≤ X.start v :=
  start_le_start h

theorem start_lt_succ (hv : v < body.length) : X.start v < X.start (v + 1) := by
  rcases exists_piece (X := X) (getElem?_eq_getElem hv) with ⟨piece, hpiece, hbecomes⟩
  have hpos := hbecomes.length_pos
  rw [start_succ hpiece]
  omega

theorem start_lt_start (huv : u < v) (hu : u < body.length) : X.start u < X.start v :=
  Nat.lt_of_lt_of_le (start_lt_succ hu) (start_le_start huv)

theorem start_le_image (hv : v < body.length) : X.start v ≤ X.image v := by
  have h := start_lt_succ (X := X) hv
  unfold image
  omega

theorem image_add_one (hv : v < body.length) : X.image v + 1 = X.start (v + 1) := by
  have h := start_lt_succ (X := X) hv
  unfold image
  omega

theorem start_inj (hu : u < body.length) (hv : v < body.length) (h : X.start u = X.start v) :
    u = v := by
  rcases Nat.lt_trichotomy u v with huv | huv | huv
  · exact absurd h (Nat.ne_of_lt (start_lt_start huv hu))
  · exact huv
  · exact absurd h.symm (Nat.ne_of_lt (start_lt_start huv hv))

theorem mem_places {x : Nat} : x ∈ X.places v ↔ X.start v ≤ x ∧ x < X.start (v + 1) := by
  unfold places
  rw [mem_range'_1]
  have hle := start_le_start (X := X) (Nat.le_add_right v 1)
  omega

theorem start_length : X.start body.length = X.front.length + X.pieces.flatten.length := by
  rw [start, take_of_length_le (Nat.le_of_eq X.length_pieces)]

theorem length_result : X.result.length = X.start body.length + X.back.length := by
  rw [start_length]
  simp [result, Nat.add_assoc]

theorem getElem?_result (hpiece : X.pieces[v]? = some piece) {i : Nat} (hi : i < piece.length) :
    X.result[X.start v + i]? = piece[i]? := by
  obtain ⟨hv, rfl⟩ := List.getElem?_eq_some_iff.mp hpiece
  -- The places before its start are filled by what stands for the commands before it.
  have hsplit : X.result = (X.front ++ (X.pieces.take v).flatten) ++ (X.pieces[v] ++
      ((X.pieces.drop (v + 1)).flatten ++ X.back)) := by
    have hpieces : X.pieces.flatten =
        (X.pieces.take v).flatten ++ (X.pieces[v] ++ (X.pieces.drop (v + 1)).flatten) := by
      rw [← flatten_cons, ← flatten_append, ← drop_eq_getElem_cons hv,
        take_append_drop]
    rw [result, hpieces]
    simp only [append_assoc]
  have hstart : (X.front ++ (X.pieces.take v).flatten).length = X.start v := by
    rw [length_append, start]
  rw [hsplit, ← hstart, getElem?_append_right (Nat.le_add_right ..), Nat.add_sub_cancel_left,
    getElem?_append_left hi]

theorem getElem?_front (hv : v < X.front.length) : X.result[v]? = X.front[v]? := by
  unfold result
  rw [getElem?_append_left hv]

theorem getElem?_back (i : Nat) : X.result[X.start body.length + i]? = X.back[i]? := by
  rw [start_length, ← length_append, result, ← append_assoc,
    getElem?_append_right (Nat.le_add_right ..), Nat.add_sub_cancel_left]

end Places

section Labels

theorem labelledFrom_flatten {exit : Option String} {body : Body} {pieces : List (List Command)}
    (h : Forall₂ (Command.Becomes exit) body pieces) : ∀ {j k : Nat} {f : Nat → Nat},
    (∀ v < body.length, f (j + v) = k + (pieces.take v).flatten.length) →
      labelledFrom k pieces.flatten = (labelledFrom j body).map fun p => (p.1, f p.2) := by
  induction h with
  | nil => exact fun _ => rfl
  | @cons c piece body pieces hc _ ih =>
    intro j k f hf
    have hj : f j = k := by simpa using hf 0 (by simp)
    have hrest : ∀ v < body.length,
        f (j + 1 + v) = k + piece.length + (pieces.take v).flatten.length := by
      intro v hv
      rw [show j + 1 + v = j + (v + 1) by omega, hf (v + 1) (by simpa using hv)]
      simp [Nat.add_assoc]
    rw [flatten_cons, labelledFrom_append, hc.labelledFrom, ih hrest, labelledFrom_cons,
      map_append, map_map, ← hj]
    rfl

theorem labelled_result : X.result.labelled =
    (body.labelled.map fun p => (p.1, X.start p.2)) ++
      X.exit.toList.map (·, X.start body.length) := by
  have hfront : labelledFrom 0 X.front = [] := labelledFrom_eq_nil X.front_labels
  have hpieces : labelledFrom X.front.length X.pieces.flatten =
      (labelledFrom 0 body).map fun p => (p.1, X.start p.2) :=
    labelledFrom_flatten X.becomes fun v _ => by rw [Nat.zero_add, start]
  change labelledFrom 0 X.result = _
  rw [result, labelledFrom_append, labelledFrom_append, hfront, Nat.zero_add, hpieces,
    X.ending.labelledFrom, ← X.start_length]
  rfl

theorem flatMap_labels_result :
    X.result.flatMap (·.labels) = body.flatMap (·.labels) ++ X.exit.toList := by
  rw [← map_fst_labelled, labelled_result, map_append, map_map, map_map,
    ← map_fst_labelled]
  simp [Function.comp_def]

variable {X} {labels labels' : NameMap Nat} (hlabels' : X.result.labelTable = .ok labels')
include hlabels'

theorem find?_start (hlabels : body.labelTable = .ok labels) {x : String} {v : Nat}
    (hx : labels.find? x = some v) : labels'.find? x = some (X.start v) := by
  rw [find?_labelTable hlabels', labelled_result]
  exact mem_append_left _ (mem_map.mpr ⟨_, (find?_labelTable hlabels).mp hx, rfl⟩)

theorem find?_exit {x : String} (hx : x ∈ X.exit) :
    labels'.find? x = some (X.start body.length) := by
  rw [find?_labelTable hlabels', labelled_result]
  exact mem_append_right _ (mem_map.mpr ⟨x, Option.mem_toList.mpr hx, rfl⟩)

end Labels

section Graph

open FlowGraph

variable {X} {g g' : FlowGraph} (hg : ofBody body = .ok g)
include hg

/-- If the label of the block at the end is not taken, no label stands at two places. -/
theorem exists_ofBody (hexit : ∀ x ∈ X.exit, x ∉ body.flatMap (·.labels)) :
    ∃ g', ofBody X.result = .ok g' := by
  rcases ofBody_eq_ok_iff.mp hg with ⟨labels, hlabels, hres, _⟩
  have hnodup : (X.result.labelled.map (·.1)).Nodup := by
    rw [map_fst_labelled, flatMap_labels_result, nodup_append]
    refine ⟨map_fst_labelled body ▸ (labelTable_eq_ok_iff.mp hlabels).1, ?_, ?_⟩
    · cases X.exit <;> simp
    · rintro x hx y hy rfl
      exact hexit x (Option.mem_toList.mp hy) hx
  have hlabels' := labelTable_eq_ok_iff.mpr ⟨hnodup, rfl⟩
  refine ⟨_, ofBody_eq_ok_iff.mpr ⟨_, hlabels', fun d hd => ?_, rfl⟩⟩
  rw [Command.resolved_iff]
  intro names' hjump x hx
  rw [Option.isSome_iff_exists]
  rcases mem_append.mp hd with hd | hd
  · rw [X.front_jump d hd] at hjump
    cases hjump
  rcases mem_append.mp hd with hd | hd
  · obtain ⟨piece, hpiece, hd⟩ := mem_flatten.mp hd
    obtain ⟨v, hv, rfl⟩ := getElem_of_mem hpiece
    have hv' : v < body.length := X.length_pieces ▸ hv
    rcases exists_piece (X := X) (getElem?_eq_getElem hv') with ⟨_, hget, hbecomes⟩
    rw [getElem?_eq_getElem hv] at hget
    cases hget
    obtain ⟨i, hi, rfl⟩ := getElem_of_mem hd
    rw [hbecomes.getElem? (getElem?_eq_getElem hi)] at hjump
    split at hjump
    · obtain ⟨names, hnames, rfl⟩ := Option.map_eq_some_iff.mp hjump
      unfold Command.leaving at hx
      split at hx
      · exact ⟨_, find?_exit hlabels' (Option.mem_toList.mp hx)⟩
      · -- The command jumped to the label before, so it stands somewhere.
        have hsome := Command.resolved_iff.mp (hres _ (getElem_mem hv')) names hnames x hx
        obtain ⟨w, hw⟩ := Option.isSome_iff_exists.mp hsome
        exact ⟨_, find?_start hlabels' hlabels hw⟩
    · cases hjump
  · rw [X.ending.jump? d hd] at hjump
    cases hjump

variable (hg' : ofBody X.result = .ok g')
include hg'

variable {v x : Nat}

omit hg in
theorem successors_of_lt_image (hv : v < body.length) (hx : X.start v ≤ x) (hlt : x < X.image v) :
    g'.successors x = [x + 1] := by
  rcases exists_piece (X := X) (getElem?_eq_getElem hv) with ⟨piece, hpiece, hbecomes⟩
  have hend := image_add_one (X := X) hv
  have hsucc := start_succ hpiece
  obtain ⟨i, rfl⟩ := Nat.exists_eq_add_of_le hx
  have hi : i < piece.length := by omega
  have hget : X.result[X.start v + i]? = some piece[i] := by
    rw [getElem?_result hpiece hi, getElem?_eq_getElem hi]
  have hjump := hbecomes.getElem? (getElem?_eq_getElem hi)
  rw [if_neg (by omega)] at hjump
  have hlen := length_result (X := X)
  have hle := start_succ_le (X := X) hv
  rw [successors_of_not_jump hg' hget hjump, if_pos (by omega)]

omit hg in
theorem successors_of_lt_front (hbody : 0 < body.length) (hx : x < X.front.length) :
    g'.successors x = [x + 1] := by
  have hget : X.result[x]? = some X.front[x] := by
    rw [getElem?_front hx, getElem?_eq_getElem hx]
  have hlen := length_result (X := X)
  have hlt := start_lt_start (X := X) hbody hbody
  have hstart : X.start 0 = X.front.length := by simp [start]
  rw [successors_of_not_jump hg' hget (X.front_jump _ (getElem_mem hx)), if_pos (by omega)]

omit hg in
theorem successors_out {y : Nat} (hx : X.start body.length ≤ x) (hy : y ∈ g'.successors x) :
    X.start body.length ≤ y ∧ x < y := by
  obtain ⟨i, rfl⟩ := Nat.exists_eq_add_of_le hx
  by_cases hi : i < X.back.length
  · have hget : X.result[X.start body.length + i]? = some X.back[i] := by
      rw [getElem?_back, getElem?_eq_getElem hi]
    rw [successors_of_not_jump hg' hget (X.ending.jump? _ (getElem_mem hi))] at hy
    split at hy
    · rw [mem_singleton.mp hy]
      omega
    · cases hy
  · rw [successors_eq_nil (by rw [size_ofBody hg', length_result]; omega)] at hy
    cases hy

/-- From the end of what stands for a command edges lead where they led before. If they
    led nowhere, one leads to the block, if there is one. -/
theorem successors_image_eq (hv : v < body.length) :
    g'.successors (X.image v) = (g.successors v).map X.start ++
      if g.successors v = [] ∧ X.back ≠ [] then [X.start body.length] else [] := by
  have hc := getElem?_eq_getElem hv
  rcases exists_piece (X := X) hc with ⟨piece, hpiece, hbecomes⟩
  have hpos := hbecomes.length_pos
  have hend := image_add_one (X := X) hv
  have hsucc := start_succ hpiece
  have hi : piece.length - 1 < piece.length := by omega
  have hget : X.result[X.image v]? = some piece[piece.length - 1] := by
    rw [show X.image v = X.start v + (piece.length - 1) by omega, getElem?_result hpiece hi,
      getElem?_eq_getElem hi]
  have hjump := hbecomes.getElem? (getElem?_eq_getElem hi)
  rw [if_pos (by omega)] at hjump
  cases hold : body[v].action.jump? with
  | none =>
    rw [hold, Option.map_none] at hjump
    rw [successors_of_not_jump hg' hget hjump, successors_of_not_jump hg hc hold, hend,
      length_result]
    by_cases hlast : v + 1 < body.length
    · have hlt := start_lt_start (X := X) hlast hlast
      rw [if_pos hlast, if_pos (by omega)]
      simp
    · -- The last command is followed by the block, if there is one.
      rw [if_neg hlast, show v + 1 = body.length by omega]
      cases X.back <;> simp
  | some names =>
    rcases ofBody_eq_ok_iff.mp hg with ⟨labels, hlabels, _⟩
    rcases ofBody_eq_ok_iff.mp hg' with ⟨labels', hlabels', _⟩
    rw [hold, Option.map_some] at hjump
    rcases successors_of_jump hg hc hlabels hold with ⟨hold, hplaces⟩
    rw [(successors_of_jump hg' hget hlabels' hjump).1, hold]
    cases names with
    | nil =>
      -- A jump that left the routine goes to the label of the block.
      rcases X.ending.cases with ⟨hexit, hback⟩ | ⟨label, hexit, hback⟩
      · simp [Command.leaving, hexit, hback, targets]
      · simp [Command.leaving, hexit, hback, targets, addTarget, find?_exit hlabels' hexit]
    | cons x names =>
      have hne : targets ((x :: names).map fun x => (labels.find? x).getD 0) ≠ [] :=
        ne_nil_of_mem (mem_targets.mpr (mem_map_of_mem mem_cons_self))
      rw [if_neg fun h => hne h.1, append_nil]
      change targets ((x :: names).map _) = _
      rw [← targets_map, map_map]
      · congr 1
        refine map_congr_left fun y hy => ?_
        obtain ⟨u, _, hu⟩ := hplaces y hy
        rw [Function.comp_apply, find?_start hlabels' hlabels hu, hu]
        rfl
      · intro a ha b hb heq
        obtain ⟨y, hy, rfl⟩ := mem_map.mp ha
        obtain ⟨z, hz, rfl⟩ := mem_map.mp hb
        obtain ⟨u, hu, hyu⟩ := hplaces y hy
        obtain ⟨w, hw, hzw⟩ := hplaces z hz
        rw [hyu, hzw] at heq ⊢
        exact start_inj hu hw heq

theorem successors_image (hv : v < body.length) :
    ∃ out, (∀ x ∈ out, X.start body.length ≤ x) ∧
      g'.successors (X.image v) = (g.successors v).map X.start ++ out := by
  refine ⟨_, fun x hx => ?_, successors_image_eq hg hg' hv⟩
  split at hx
  · exact Nat.le_of_eq (mem_singleton.mp hx).symm
  · cases hx

omit hg in
theorem corridor_places (hv : v < body.length) :
    Corridor g' (X.start v) (X.places v) (X.image v) := by
  have hend := image_add_one (X := X) hv
  have hle := start_le_image (X := X) hv
  have hc := Corridor.of_range' (g := g') (a := X.start v) (n := X.image v - X.start v)
    fun i hi => successors_of_lt_image hg' hv (Nat.le_add_right ..) (by omega)
  rw [Nat.add_sub_cancel' hle] at hc
  rwa [places, show X.start (v + 1) - X.start v = X.image v - X.start v + 1 by omega]

omit hg hg' in
theorem eq_of_mem_places {u : Nat} (hu : x ∈ X.places u) (hv : x ∈ X.places v) : u = v := by
  rw [mem_places] at hu hv
  rcases Nat.lt_trichotomy u v with huv | huv | huv
  · have hle := start_succ_le (X := X) huv
    omega
  · exact huv
  · have hle := start_succ_le (X := X) huv
    omega

omit hg hg' in
theorem lt_start_of_mem_places (hx : x ∈ X.places v) : x < X.start body.length := by
  rw [mem_places] at hx
  by_cases hv : v < body.length
  · have hle := start_succ_le (X := X) hv
    omega
  · -- Past the last command nothing has a place.
    have hall : ∀ u, body.length ≤ u → X.start u = X.start body.length := by
      intro u hu
      rw [start_length, start, take_of_length_le (X.length_pieces ▸ hu)]
    have hstart := hall v (by omega)
    have hend := hall (v + 1) (by omega)
    omega

omit hg hg' in
theorem not_mem_front_of_mem_places (hx : x ∈ X.places v) : x ∉ List.range X.front.length := by
  rw [mem_places] at hx
  rw [mem_range]
  unfold start at hx
  omega

omit hg hg' in
theorem lt_start_of_mem_front (hx : x ∈ List.range X.front.length) : x < X.start body.length := by
  rw [mem_range] at hx
  rw [start_length]
  omega

omit hg in
theorem corridor_entry (hbody : 0 < body.length) :
    Corridor g' 0 (List.range X.front.length ++ X.places 0) (X.image 0) := by
  have hend := image_add_one (X := X) hbody
  have hle := start_le_image (X := X) hbody
  have hstart : X.start 0 = X.front.length := by simp [start]
  have happend : List.range X.front.length ++ X.places 0 = List.range' 0 (X.image 0 + 1) := by
    have hlen : X.image 0 + 1 = X.start 0 + (X.start (0 + 1) - X.start 0) := by omega
    rw [range_eq_range', hlen, ← range'_append, places, hstart]
    simp
  have hc := Corridor.of_range' (g := g') (a := 0) (n := X.image 0) fun i hi => by
    rw [Nat.zero_add]
    by_cases hfront : i < X.front.length
    · exact successors_of_lt_front hg' hbody hfront
    · exact successors_of_lt_image hg' hbody (by omega) hi
  rw [Nat.zero_add] at hc
  rwa [happend]

theorem exists_entry {e : Nat} (he : g.entry = some e) : ∃ e', g'.entry = some e' ∧
    Corridor g' e' (List.range X.front.length ++ X.places e) (X.image e) := by
  rw [entry_ofBody hg, firstEntry] at he
  split at he
  · cases he
  · next hbody =>
    cases he
    have hpos : 0 < body.length := Nat.pos_of_ne_zero hbody
    have hlt := start_lt_start (X := X) hpos hpos
    have hlen := length_result (X := X)
    refine ⟨0, ?_, corridor_entry hg' hpos⟩
    rw [entry_ofBody hg', firstEntry, if_neg (by omega)]

/-- The graph of a body is in the graph of the body with every command replaced. -/
def embedding : Embedding g g' where
  start := X.start
  image := X.image
  places := X.places
  lead := List.range X.front.length
  Out x := X.start body.length ≤ x
  corridor _ hv := corridor_places hg' (size_ofBody hg ▸ hv)
  disjoint := eq_of_mem_places
  notOut hx := Nat.not_le_of_lt (lt_start_of_mem_places hx)
  lead_notOut _ hx := Nat.not_le_of_lt (lt_start_of_mem_front hx)
  lead_disjoint := not_mem_front_of_mem_places
  successors_image _ hu := successors_image hg hg' (size_ofBody hg ▸ hu)
  forward _ hu _ hv := successors_out hg' hu hv
  entry _ he := exists_entry hg hg' he

theorem closing_walk :
    g'.walk.closing = g.walk.closing.map fun e => (X.image e.1, X.start e.2) := by
  cases hentry : g.entry with
  | some e =>
    exact ((embedding hg hg').mirrors_walk hentry (entry_lt_size hg hentry)
      fun _ => entry_lt_size hg').closing
  | none =>
    -- Without commands to replace, there are only places that lead to the next one.
    have hempty : body = [] := by
      rw [entry_ofBody hg, firstEntry] at hentry
      split at hentry
      · next hlen => exact length_eq_zero_iff.mp hlen
      · cases hentry
    have hpieces : X.pieces = [] := by
      rw [← length_eq_zero_iff, X.length_pieces, hempty, length_nil]
    have hplain : ∀ d ∈ X.result, d.action.jump? = none := by
      intro d hd
      rw [result, hpieces, flatten_nil, nil_append, mem_append] at hd
      exact hd.elim (X.front_jump d) (X.ending.jump? d)
    have hforward : ∀ u, True → ∀ v ∈ g'.successors u, True ∧ u < v := by
      intro u _ v hv
      have hu : u < X.result.length := size_ofBody hg' ▸ lt_size_of_edge hv
      have hjump := hplain _ (getElem_mem hu)
      rw [successors_of_not_jump hg' (getElem?_eq_getElem hu) hjump] at hv
      split at hv
      · exact ⟨trivial, by rw [mem_singleton.mp hv]; omega⟩
      · cases hv
    have hnone : g.walk.closing = [] := by simp [walk, hentry]
    rw [hnone, map_nil]
    cases hentry' : g'.entry with
    | none => simp [walk, hentry']
    | some e' =>
      exact ((follows_walk hentry' (entry_lt_size hg' hentry')).forward hforward (by simp)
        (by simp)).1

/-- The same edges are cut, in the same order. -/
theorem backEdges_cut :
    g'.cut.backEdges = g.cut.backEdges.map fun e => (X.image e.1, X.start e.2) := by
  change g'.walk.closing.reverse = g.walk.closing.reverse.map _
  rw [closing_walk hg hg', map_reverse]

end Graph

end Expansion

end Body

end Vouch
