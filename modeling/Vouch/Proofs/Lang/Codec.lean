import Vouch.Cli.Run
import Vouch.Proofs.Json.Words

/-!
# Programs Survive Being Written

A reader that is given enough levels for the value in front of it has enough for
everything inside, because each array or object that it enters costs it one level and is
one level of the value.

## Main definitions

* `Json.nesting`: How deep arrays and objects nest.
* `Json.Decodes`: Reading gives back what was written.

## Theorems

* `written_program_loads`: A program that is written is loaded as it was.
-/

namespace Vouch

open List

namespace Json

mutual

/-- How deep arrays and objects nest in a value. -/
def nesting : Json → Nat
  | arr items => itemsNesting items + 1
  | obj members => membersNesting members + 1
  | _ => 0

/-- How deep they nest in the items of an array. -/
def itemsNesting : List Json → Nat
  | [] => 0
  | j :: js => max (nesting j) (itemsNesting js)

/-- How deep they nest in the members of an object. -/
def membersNesting : List (Option String × Json) → Nat
  | [] => 0
  | (_, j) :: ms => max (nesting j) (membersNesting ms)

end

theorem nesting_of_mem_items {js : List Json} {j : Json} (h : j ∈ js) :
    j.nesting ≤ itemsNesting js := by
  induction js with
  | nil => simp at h
  | cons i js ih =>
    rw [itemsNesting]
    rcases mem_cons.mp h with rfl | h
    · omega
    · have := ih h
      omega

theorem membersNesting_eq (ms : List (Option String × Json)) :
    membersNesting ms = itemsNesting (ms.map (·.2)) := by
  induction ms with
  | nil => rfl
  | cons m ms ih => rw [membersNesting, ih, map_cons, itemsNesting]

/-- Reading the value with enough levels gives back what was written. -/
structure Decodes {α : Type} (read : Nat → Json → Option α) (a : α) (j : Json) : Prop where
  plain : Plain j
  read_eq : ∀ depth, j.nesting ≤ depth → read depth j = some a

section Shapes

variable {α : Type} {read : Nat → Json → Option α} {a : α}

@[simp]
theorem string?_text (s : String) : (text s).string? = some s := rfl

theorem decodes_text (s : String) : Decodes (fun _ => string?) s (text s) :=
  ⟨.text s, fun _ _ => string?_text s⟩

variable {items : List Json} {members : List (String × Json)} {content : Json}

theorem exists_depth_of_arr {depth : Nat} (h : (arr items).nesting ≤ depth) :
    ∃ d, depth = d + 1 ∧ ∀ j ∈ items, j.nesting ≤ d := by
  rw [nesting] at h
  refine ⟨depth - 1, by omega, fun j hj => ?_⟩
  have := nesting_of_mem_items hj
  omega

theorem record_eq (members : List (String × Json)) :
    record members = .obj (members.map fun m => (some m.1, m.2)) := rfl

theorem exists_depth_of_record {depth : Nat} (h : (record members).nesting ≤ depth) :
    ∃ d, depth = d + 1 ∧ ∀ m ∈ members, m.2.nesting ≤ d := by
  rw [record_eq, nesting, membersNesting_eq, map_map] at h
  refine ⟨depth - 1, by omega, fun m hm => ?_⟩
  have hle := nesting_of_mem_items (mem_map_of_mem (f := (·.2)) hm)
  simp only [Function.comp_def] at h
  omega

theorem mapM_of_forall {β γ : Type} {f : β → Option γ} {g : α → β} {k : α → γ} {as : List α}
    (h : ∀ a ∈ as, f (g a) = some (k a)) : (as.map g).mapM f = some (as.map k) := by
  induction as with
  | nil => rfl
  | cons a as ih =>
    rw [map_cons, mapM_cons, h a mem_cons_self,
      ih fun b hb => h b (mem_cons_of_mem a hb)]
    rfl

theorem decodes_list {write : α → Json} {as : List α} (h : ∀ a ∈ as, Decodes read a (write a)) :
    Decodes (list? read) as (.arr (as.map write)) := by
  refine ⟨.arr fun j hj => ?_, fun depth hdepth => ?_⟩
  · rcases mem_map.mp hj with ⟨a, ha, rfl⟩
    exact (h a ha).plain
  · rcases exists_depth_of_arr hdepth with ⟨d, rfl, hd⟩
    have hread := mapM_of_forall fun a ha => (h a ha).read_eq d (hd _ (mem_map_of_mem ha))
    rwa [map_id'] at hread

theorem decodes_texts (ss : List String) : Decodes strings? ss (texts ss) :=
  decodes_list fun s _ => decodes_text s

theorem items?_arr (items : List Json) (d : Nat) : items? (d + 1) (.arr items) = some (d, items) :=
  rfl

theorem choice?_record (name : String) (content : Json) (d : Nat) :
    choice? (d + 1) (record [(name, content)]) = some (name, some (d, content)) := by
  rw [record_eq, map_cons, map_nil, choice?, if_neg (by omega)]
  rfl

theorem member?_of_mem (hnodup : (members.map (·.1)).Nodup) {m : String × Json} (h : m ∈ members) :
    member? (members.map fun m => (some m.1, m.2)) m.1 = some (some m.2) := by
  have hfilter : (members.map fun m => (some m.1, m.2)).filter (·.1 == some m.1) =
      [(some m.1, m.2)] := by
    induction members with
    | nil => simp at h
    | cons n members ih =>
      rw [map_cons, nodup_cons] at hnodup
      rw [map_cons]
      -- The name occurs at the front or behind it, and not in both places.
      rcases mem_cons.mp h with rfl | h
      · have hrest : (members.map fun m => (some m.1, m.2)).filter (·.1 == some m.1) = [] := by
          rw [filter_eq_nil_iff]
          intro p hp
          rcases mem_map.mp hp with ⟨q, hq, rfl⟩
          have hne : q.1 ≠ m.1 := fun heq => hnodup.1 (heq ▸ mem_map_of_mem hq)
          simpa using hne
        rw [filter_cons_of_pos (by simp), hrest]
      · have hne : n.1 ≠ m.1 := fun heq => hnodup.1 (heq ▸ mem_map_of_mem h)
        rw [filter_cons_of_neg (by simpa using hne)]
        exact ih hnodup.2 h
  unfold member?
  rw [hfilter]

theorem members?_record (members : List (String × Json)) (hnodup : (members.map (·.1)).Nodup)
    (d : Nat) : members? (members.map (·.1)) (d + 1) (record members) =
      some (d, members.map fun m => some m.2) := by
  have hkeys : (members.map fun m => (some m.1, m.2)).any (·.1.isNone) = false := by simp
  have hmembers := mapM_of_forall fun m hm => member?_of_mem hnodup (m := m) hm
  unfold members?
  rw [if_neg (by omega), record_eq]
  simp only [hkeys, Bool.false_eq_true, if_false, hmembers]
  rfl

theorem decodes_record (members : List (String × Json)) (hnodup : (members.map (·.1)).Nodup)
    (hplain : ∀ m ∈ members, Plain m.2) {make : Nat × List (Option Json) → Option α}
    (hread : ∀ depth j, read depth j = (members? (members.map (·.1)) depth j).bind make)
    (h : ∀ d, (∀ m ∈ members, m.2.nesting ≤ d) →
      make (d, members.map fun m => some m.2) = some a) : Decodes read a (record members) := by
  refine ⟨.record hplain, fun depth hdepth => ?_⟩
  rcases exists_depth_of_record hdepth with ⟨d, rfl, hd⟩
  rw [hread, members?_record members hnodup, Option.bind_some, h d hd]

theorem decodes_choice (name : String) (hplain : Plain content)
    (h : ∀ d, content.nesting ≤ d → read (d + 1) (record [(name, content)]) = some a) :
    Decodes read a (record [(name, content)]) := by
  refine ⟨.record (by simpa using hplain), fun depth hdepth => ?_⟩
  rcases exists_depth_of_record hdepth with ⟨d, rfl, hd⟩
  exact h d (hd _ mem_cons_self)

theorem decodes_wrapped {β : Type} {readContent : Nat → Json → Option β} {b : β} {name : String}
    {wrap : β → α} (hb : Decodes readContent b content)
    (h : ∀ d, read (d + 1) (record [(name, content)]) =
      (readContent d content >>= fun b => pure (wrap b))) :
    Decodes read (wrap b) (record [(name, content)]) := by
  refine decodes_choice name hb.plain fun d hd => ?_
  rw [h, hb.read_eq d hd]
  rfl

theorem decodes_tuple (name : String) (hplain : ∀ j ∈ items, Plain j)
    (h : ∀ d, (∀ j ∈ items, j.nesting ≤ d) → read (d + 2) (record [(name, .arr items)]) = some a) :
    Decodes read a (record [(name, .arr items)]) := by
  refine decodes_choice name (.arr hplain) fun depth hdepth => ?_
  rcases exists_depth_of_arr hdepth with ⟨d, rfl, hd⟩
  exact h d hd

end Shapes

end Json

open Json

theorem Ty.toJsons_eq_map (ts : List Ty) : toJsons ts = ts.map toJson := by
  induction ts with
  | nil => rw [toJsons, map_nil]
  | cons t ts ih => rw [toJsons, ih, map_cons]

theorem Ty.decodes : ∀ t : Ty, Decodes ofJson? t t.toJson
  | int | bool => by
    rw [toJson]
    refine ⟨.text _, fun depth _ => ?_⟩
    rw [ofJson?]
    rfl
  | named name => by
    rw [toJson]
    refine decodes_choice _ (.text name) fun d _ => ?_
    rw [ofJson?, choice?_record]
    rfl
  | map indices element => by
    have hindices := decodes_list fun t (_ : t ∈ indices) => decodes t
    have helement := decodes element
    rw [toJson, toJsons_eq_map]
    refine decodes_choice _ (.record (by simp [hindices.plain, helement.plain])) fun d hd => ?_
    -- The record takes a level, and so does the list of indices in it.
    rcases exists_depth_of_record hd with ⟨d, rfl, hrecord⟩
    rw [forall_mem_cons, forall_mem_singleton] at hrecord
    rcases exists_depth_of_arr hrecord.1 with ⟨d, rfl, _⟩
    have hmembers : members? ["indices", "element"] (d + 1 + 1) _ = _ := members?_record
      [("indices", .arr (indices.map toJson)), ("element", element.toJson)] (by simp) (d + 1)
    have hitems : (indices.map toJson).mapM (ofJson? d) = some indices :=
      hindices.read_eq (d + 1) hrecord.1
    rw [ofJson?, choice?_record]
    simp [hmembers, items?_arr, hitems, helement.read_eq, hrecord]

theorem VarDecl.decodes (v : VarDecl) : Decodes ofJson? v v.toJson := by
  have hty := v.ty.decodes
  refine decodes_record _ (by simp) (by simp [Plain.text, hty.plain]) (fun _ _ => rfl)
    fun d hd => ?_
  simp only [forall_mem_cons] at hd
  simp [hty.read_eq, hd]

theorem UnOp.ofJson?_code (op : UnOp) (depth : Nat) : ofJson? depth (.text op.code) = some op := by
  cases op <;> rfl

theorem BinOp.ofJson?_code (op : BinOp) (depth : Nat) :
    ofJson? depth (.text op.code) = some op := by
  cases op <;> rfl

theorem Json.int64?_toInt (n : Int64) : int64? (.int n.toInt) = some n := by
  rw [int64?, if_pos ⟨n.minValue_le_toInt, n.toInt_le⟩, Int64.ofInt_toInt]

namespace Expr

theorem toJsons_eq_map (es : List Expr) : toJsons es = es.map toJson := by
  induction es with
  | nil => rw [toJsons, map_nil]
  | cons e es ih => rw [toJsons, ih, map_cons]

theorem parts?_of_decodes {es : List Expr} (h : ∀ e ∈ es, Decodes ofJson? e e.toJson) {depth : Nat}
    (hdepth : (Json.arr (es.map toJson)).nesting ≤ depth) :
    ofJson?.parts? depth (.arr (es.map toJson)) = some es := by
  have hread := (decodes_list h).read_eq depth hdepth
  rcases exists_depth_of_arr hdepth with ⟨d, rfl, _⟩
  rw [ofJson?.parts?]
  exact hread

theorem decodes : ∀ e : Expr, Decodes ofJson? e e.toJson
  | bool b => by
    rw [toJson]
    refine decodes_choice _ (.bool b) fun d _ => ?_
    cases d <;> rw [ofJson?, choice?_record] <;> rfl
  | int n => by
    rw [toJson]
    refine decodes_choice _ (.int _) fun d _ => ?_
    cases d <;> rw [ofJson?, choice?_record] <;>
      simp only [Option.bind_eq_bind, Option.bind_some, int64?_toInt] <;> rfl
  | var name => by
    rw [toJson]
    refine decodes_choice _ (.text name) fun d _ => ?_
    cases d <;> rw [ofJson?, choice?_record] <;> rfl
  | unary op e => by
    have he := decodes e
    rw [toJson]
    refine decodes_tuple _ (by simp [Plain.text, he.plain]) fun d hd => ?_
    simp only [forall_mem_cons] at hd
    rw [ofJson?, choice?_record]
    simp [op.ofJson?_code, he.read_eq, hd]
  | binary op l r => by
    have hl := decodes l
    have hr := decodes r
    rw [toJson]
    refine decodes_tuple _ (by simp [Plain.text, hl.plain, hr.plain]) fun d hd => ?_
    simp only [forall_mem_cons] at hd
    rw [ofJson?, choice?_record]
    simp [op.ofJson?_code, hl.read_eq, hr.read_eq, hd]
  | app f args => by
    have hargs := fun e (_ : e ∈ args) => decodes e
    rw [toJson, toJsons_eq_map]
    refine decodes_tuple _ (by simp [Plain.text, (decodes_list hargs).plain]) fun d hd => ?_
    simp only [forall_mem_cons] at hd
    rw [ofJson?, choice?_record]
    simp [parts?_of_decodes hargs hd.2.1]
  | select m idx => by
    have hm := decodes m
    have hidx := fun e (_ : e ∈ idx) => decodes e
    rw [toJson, toJsons_eq_map]
    refine decodes_tuple _ (by simp [hm.plain, (decodes_list hidx).plain]) fun d hd => ?_
    simp only [forall_mem_cons] at hd
    rw [ofJson?, choice?_record]
    simp [hm.read_eq, parts?_of_decodes hidx hd.2.1, hd]
  | update m idx v => by
    have hm := decodes m
    have hidx := fun e (_ : e ∈ idx) => decodes e
    have hv := decodes v
    rw [toJson, toJsons_eq_map]
    refine decodes_tuple _ (by simp [hm.plain, (decodes_list hidx).plain, hv.plain]) fun d hd => ?_
    simp only [forall_mem_cons] at hd
    rw [ofJson?, choice?_record]
    simp [hm.read_eq, parts?_of_decodes hidx hd.2.1, hv.read_eq, hd]
  | all vars body => by
    have hvars := decodes_list fun v (_ : v ∈ vars) => v.decodes
    have hbody := decodes body
    rw [toJson]
    refine decodes_tuple _ (by simp [hvars.plain, hbody.plain]) fun d hd => ?_
    simp only [forall_mem_cons] at hd
    rw [ofJson?, choice?_record]
    simp [hvars.read_eq, hbody.read_eq, hd]

theorem decodes_all (es : List Expr) : Decodes (list? ofJson?) es (.arr (toJsons es)) := by
  rw [toJsons_eq_map]
  exact decodes_list fun e _ => e.decodes

end Expr

theorem decodes_vars (vars : List VarDecl) :
    Decodes (list? VarDecl.ofJson?) vars (varsToJson vars) :=
  decodes_list fun v _ => v.decodes

theorem Call.decodes (c : Call) : Decodes ofJson? c c.toJson := by
  have hresults := decodes_texts c.results
  have hargs := Expr.decodes_all c.args
  refine decodes_record _ (by simp) (by simp [Plain.text, hresults.plain, hargs.plain])
    (fun _ _ => rfl) fun d hd => ?_
  simp only [forall_mem_cons] at hd
  simp [orDefault, hresults.read_eq, hargs.read_eq, hd]

theorem Action.decodes_pair (p : String × Expr) : Decodes pair? p (.arr [.text p.1, p.2.toJson]) := by
  have he := p.2.decodes
  refine ⟨.arr (by simp [Plain.text, he.plain]), fun depth hdepth => ?_⟩
  rcases exists_depth_of_arr hdepth with ⟨d, rfl, hd⟩
  simp only [forall_mem_cons] at hd
  unfold pair?
  simp only [Option.bind_eq_bind, Option.bind_some, items?_arr, (decodes_text p.1).read_eq d hd.1,
    he.read_eq d hd.2.1]
  rfl

theorem Action.decodes (a : Action) : Decodes ofJson? a a.toJson := by
  cases a with
  | assert e | assume e => exact decodes_wrapped e.decodes fun _ => rfl
  | assign pairs => exact decodes_wrapped (decodes_list fun p _ => decodes_pair p) fun _ => rfl
  | havoc vars => exact decodes_wrapped (decodes_texts vars) fun _ => rfl
  | call site => exact decodes_wrapped site.decodes fun _ => rfl
  | goto targets => exact decodes_wrapped (decodes_texts targets) fun _ => rfl
  | skip => exact ⟨.text _, fun _ _ => rfl⟩

theorem Command.decodes (c : Command) : Decodes ofJson? c c.toJson := by
  have hlabels := decodes_texts c.labels
  have haction := c.action.decodes
  refine decodes_record _ (by simp) (by simp [hlabels.plain, haction.plain]) (fun _ _ => rfl)
    fun d hd => ?_
  simp only [forall_mem_cons] at hd
  simp [orDefault, hlabels.read_eq, haction.read_eq, hd]

theorem Body.decodes (b : Body) : Decodes ofJson? b b.toJson :=
  decodes_list fun c _ => c.decodes

theorem FunctionDecl.decodes (f : FunctionDecl) : Decodes ofJson? f f.toJson := by
  have hargs := decodes_list fun t (_ : t ∈ f.args) => t.decodes
  have hresult := f.result.decodes
  rw [toJson, Ty.toJsons_eq_map]
  refine decodes_record _ (by simp) (by simp [Plain.text, hargs.plain, hresult.plain])
    (fun _ _ => rfl) fun d hd => ?_
  simp only [forall_mem_cons] at hd
  simp [orDefault, hargs.read_eq, hresult.read_eq, hd]

theorem Procedure.decodes (p : Procedure) : Decodes ofJson? p p.toJson := by
  have hargs := decodes_vars p.args
  have hresults := decodes_vars p.results
  have hrequires := Expr.decodes_all p.requires
  have hmodifies := decodes_list fun ss (_ : ss ∈ p.modifies) => decodes_texts ss
  have hensures := Expr.decodes_all p.ensures
  refine decodes_record _ (by simp) (by simp [Plain.text, hargs.plain, hresults.plain,
    hrequires.plain, hmodifies.plain, hensures.plain]) (fun _ _ => rfl) fun d hd => ?_
  simp only [forall_mem_cons] at hd
  simp [orDefault, hargs.read_eq, hresults.read_eq, hrequires.read_eq, hmodifies.read_eq,
    hensures.read_eq, hd]

theorem Routine.decodes_location (location : Option String) :
    Decodes (fun _ => location?) location (.ofOption (location.map Json.text)) := by
  cases location with
  | none => exact ⟨.null, fun _ _ => rfl⟩
  | some s => exact ⟨.text s, fun _ _ => rfl⟩

theorem Routine.decodes (r : Routine) : Decodes ofJson? r r.toJson := by
  have hargs := decodes_vars r.args
  have hresults := decodes_vars r.results
  have hlocals := decodes_vars r.locals
  have hbody := Body.decodes r.body
  have hlocation := decodes_location r.location
  refine decodes_record _ (by simp) (by simp [Plain.text, hargs.plain, hresults.plain,
    hlocals.plain, hbody.plain, hlocation.plain]) (fun _ _ => rfl) fun d hd => ?_
  simp only [forall_mem_cons] at hd
  simp [orDefault, hargs.read_eq, hresults.read_eq, hlocals.read_eq, hbody.read_eq,
    hlocation.read_eq d hd.2.2.2.2.2.1, hd]

theorem Program.decodes (p : Program) : Decodes ofJson? p p.toJson := by
  have hglobals := decodes_vars p.globals
  have hfunctions := decodes_list fun f (_ : f ∈ p.functions) => f.decodes
  have haxioms := Expr.decodes_all p.axioms
  have hprocedures := decodes_list fun q (_ : q ∈ p.procedures) => q.decodes
  have hroutines := decodes_list fun r (_ : r ∈ p.routines) => r.decodes
  refine decodes_record _ (by simp) (by simp [hglobals.plain, hfunctions.plain, haxioms.plain,
    hprocedures.plain, hroutines.plain]) (fun _ _ => rfl) fun d hd => ?_
  simp only [forall_mem_cons] at hd
  simp [orDefault, hglobals.read_eq, hfunctions.read_eq, haxioms.read_eq, hprocedures.read_eq,
    hroutines.read_eq, hd]

theorem fromUTF8?_toUTF8 (s : String) : String.fromUTF8? s.toUTF8 = some s := by
  unfold String.fromUTF8?
  rw [String.toUTF8_eq_toByteArray, dif_pos s.isValidUTF8]
  rfl

/-- A program that is written to a file is loaded from it as it was, if its text nests at most
    127 arrays and objects deep. -/
theorem written_program_loads (p : Program) (h : p.toJson.nesting ≤ 127) :
    Program.ofBytes (.ok p.toJson.compact.toUTF8) = .ok p := by
  have hparse : Program.parse? p.toJson.compact = some p := by
    unfold Program.parse?
    rw [parse?_compact p.decodes.plain]
    exact p.decodes.read_eq Program.maxNesting h
  unfold Program.ofBytes
  simp only [fromUTF8?_toUTF8, hparse]

/-- A program with names that have to be escaped, the smallest literal, a quantifier over a
    map, and lists that are empty or missing their location. -/
def Program.awkward : Program where
  globals := [⟨"q\"\\\n\x01ü𝄞", .map [.int, .map [] .bool] (.named "")⟩]
  functions := [⟨"f", [], .bool⟩]
  axioms := [.all [⟨"m", .map [.int] .int⟩]
    (.binary .eq (.select (.update (.var "m") [.int Int64.minValue] (.int 0)) []) (.app "f" []))]
  procedures := [
    { name := "", modifies := [[], ["a", "b"]], ensures := [.unary .not (.bool false)] }]
  routines := [
    { name := "r", location := some "a.ivl:1", body := [
      ⟨["top", ""], .assign [("x", .int (-1)), ("x", .var "y")]⟩, ⟨[], .call ⟨"p", ["z"], []⟩⟩,
      ⟨[], .havoc []⟩, ⟨[], .skip⟩, ⟨[], .goto []⟩] },
    { name := "s" }]

theorem written_program_loads_awkward : Program.awkward.toJson.nesting = 12 ∧
    Program.ofBytes (.ok Program.awkward.toJson.compact.toUTF8) = .ok Program.awkward := by
  have hnesting : Program.awkward.toJson.nesting = 12 := by decide
  exact ⟨hnesting, written_program_loads Program.awkward (by omega)⟩

end Vouch
