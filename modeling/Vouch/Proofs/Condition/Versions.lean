import Mathlib.Data.List.Induction
import Vouch.Condition.Basic
import Vouch.Proofs.Condition.Encoding
import Vouch.Proofs.Lang.Execution

/-!
# Versions of Variables

A variable that is overwritten lives on under a new version, and each version has wire
names of its own. What a condition says about a state is what it says for the versions'
values too, so the versions have to be separated from the variables first.

## Main definitions

* `Scope.Separated`: This does not happen.
* `Scope.Version`: A variable, or a version with a number below a bound.
* `Scope.Standard`: An assignment treats versions like variables.
* `Scope.Shows`: An assignment shows a state.
* `Term.Over`: A term is about versions.

## Theorems

* `Scope.exists_standard`: The values of versions can be chosen freely.
* `Scope.exists_shows`: Every state is shown.
* `Term.Over.eval_congr`: Nothing but versions matters.
-/

namespace Vouch

open Term

namespace Scope

variable {s : Scope}

/-- No declared name has `$$` in it. -/
def PlainNames (s : Scope) : Prop :=
  ∀ x T, s.varType? x = some T → PlainName x

/-- The formula of a version is never spelled like the value of a variable. -/
def Separated (s : Scope) : Prop :=
  ∀ x y T k, s.varType? x = some .bool → s.varType? y = some T → versionName x k ≠ valueName y

/-- The formula of a version is never spelled like the value of one of these. -/
def SeparatedFrom (s : Scope) (B : String → Prop) : Prop :=
  ∀ x y k, s.varType? x = some .bool → B y → versionName x k ≠ valueName y

variable {T : Ty} {x y n : String} {M N : Nat}

theorem mem_keys_of_varType? (h : s.varType? x = some T) : x ∈ s.locals.keys ++ s.globals.keys := by
  unfold varType? at h
  rw [List.mem_append]
  cases hl : s.locals.find? x with
  | some U => exact .inl (List.mem_map_of_mem (mem_of_lookup hl))
  | none =>
    rw [hl] at h
    exact .inr (List.mem_map_of_mem (mem_of_lookup h))

theorem plainNames_of_keys (h : ∀ x ∈ s.locals.keys ++ s.globals.keys, PlainName x) :
    s.PlainNames :=
  fun x _ hx => h x (mem_keys_of_varType? hx)

theorem separatedFrom_of_keys (hs : s.PlainNames)
    (h : ∀ x ∈ s.locals.keys ++ s.globals.keys, x ≠ "term" ∧ x ≠ "term$") (B : String → Prop) :
    s.SeparatedFrom B := by
  intro x y k hx _ heq
  rcases eq_term_of_versionName_eq_valueName (hs x _ hx) heq with hx' | hx'
  · exact (h x (mem_keys_of_varType? hx)).1 hx'
  · exact (h x (mem_keys_of_varType? hx)).2 hx'

theorem separated_of_keys (hs : s.PlainNames)
    (h : ∀ x ∈ s.locals.keys ++ s.globals.keys, x ≠ "term" ∧ x ≠ "term$") : s.Separated :=
  fun x y _ k hx _ => separatedFrom_of_keys hs h (fun _ => True) x y k hx trivial

/-- The second name is the first, or a version of it with a number below the
    bound. -/
def VersionOf (N : Nat) (x y : String) : Prop :=
  y = x ∨ ∃ k < N, y = versionName x k

/-- The name is a variable of the type, or a version of one with a number below
    the bound. -/
def Version (s : Scope) (N : Nat) (y : String) (T : Ty) : Prop :=
  ∃ x, s.varType? x = some T ∧ VersionOf N x y

theorem Version.mono (h : s.Version N y T) (hNM : N ≤ M) : s.Version M y T := by
  rcases h with ⟨x, hx, rfl | ⟨k, hk, rfl⟩⟩
  · exact ⟨y, hx, .inl rfl⟩
  · exact ⟨x, hx, .inr ⟨k, by omega, rfl⟩⟩

theorem version_of_varType? (h : s.varType? x = some T) (N : Nat) : s.Version N x T :=
  ⟨x, h, .inl rfl⟩

theorem version_versionName (h : s.varType? x = some T) {k : Nat} (hk : k < N) :
    s.Version N (versionName x k) T :=
  ⟨x, h, .inr ⟨k, hk, rfl⟩⟩

theorem VersionOf.unique {x' : String} (hx : PlainName x) (hx' : PlainName x')
    (h : VersionOf N x y) (h' : VersionOf M x' y) : x = x' := by
  rcases h with rfl | ⟨k, _, rfl⟩
  · rcases h' with rfl | ⟨j, _, hj⟩
    · rfl
    · exact absurd hj (plainName_ne_versionName hx)
  · rcases h' with h' | ⟨j, _, hj⟩
    · exact absurd h'.symm (plainName_ne_versionName hx')
    · exact (versionName_inj hj).1

theorem Version.type_unique (hs : s.PlainNames) {U : Ty} (h : s.Version N y T)
    (h' : s.Version M y U) : T = U := by
  rcases h with ⟨x, hx, hy⟩
  rcases h' with ⟨x', hx', hy'⟩
  rw [hy.unique (hs x T hx) (hs x' U hx') hy', hx', Option.some.injEq] at hx
  exact hx.symm

theorem Version.ne_valueName (hs : s.PlainNames) (hsep : s.Separated) {z : String}
    (hy : s.Version N y .bool) (hz : s.Version M z T) : y ≠ valueName z := by
  rcases hy with ⟨x, hx, rfl | ⟨k, _, rfl⟩⟩
  · exact plainName_ne_valueName (hs y _ hx)
  · rcases hz with ⟨w, hw, rfl | ⟨j, _, rfl⟩⟩
    · exact hsep x z T k hx hw
    · exact versionName_ne_valueName_versionName (hs x _ hx)

theorem Version.ne_versionName (hs : s.PlainNames) {k : Nat} (hy : s.Version N y T) (hk : N ≤ k) :
    y ≠ versionName x k := by
  rcases hy with ⟨w, hw, rfl | ⟨j, hj, rfl⟩⟩
  · exact plainName_ne_versionName (hs y T hw)
  · intro h
    have := (versionName_inj h).2
    omega

/-- The wire names of versions with numbers below the bound. -/
def Known (s : Scope) (N : Nat) (n : String) : Prop :=
  (∃ y T, s.Version N y T ∧ n = valueName y) ∨ s.Version N n .bool

theorem Known.mono (h : s.Known N n) (hNM : N ≤ M) : s.Known M n :=
  h.imp (fun ⟨y, T, hy, hn⟩ => ⟨y, T, hy.mono hNM, hn⟩) fun hn => hn.mono hNM

theorem WireName.known (h : s.WireName [] n) (N : Nat) : s.Known N n := by
  rcases h with ⟨x, T, hx, rfl⟩ | ⟨_, hn⟩
  · exact .inl ⟨x, T, version_of_varType? hx N, rfl⟩
  · exact .inr (version_of_varType? hn N)

theorem Known.not_captured (hs : s.PlainNames) (h : s.Known N n) : ¬ CapturedName n := by
  rintro ⟨z, j, _, rfl⟩
  rcases h with ⟨y, T, ⟨x, hx, hy⟩, hn⟩ | ⟨x, hx, hy⟩
  · rw [← valueName_renamedBinder] at hn
    rcases hy with rfl | ⟨k, _, rfl⟩
    · exact plainName_ne_renamedBinder (hs y T hx) (valueName_inj hn).symm
    · exact versionName_ne_renamedBinder _ _ _ _ (valueName_inj hn).symm
  · rcases hy with hy | ⟨k, _, hy⟩
    · rw [← hy] at hx
      exact plainName_ne_renamedBinder (hs _ _ hx) rfl
    · exact versionName_ne_renamedBinder _ _ _ _ hy.symm

end Scope

/-- The values of versions under an assignment. -/
def Assignment.view {V : Type} (ρ : Assignment V) : Assignment V :=
  fun y => ρ (valueName y)

namespace Scope

variable {s : Scope} {I : Interp}

/-- The assignment treats versions like variables: values of the type, and the
    formula of a boolean agreeing with its value. -/
structure Standard (s : Scope) (I : Interp) (ρ : Assignment I.Value) : Prop where
  value : ∀ N y T, s.Version N y T → I.Dom T.sort (ρ (valueName y))
  formula : ∀ N y, s.Version N y .bool → ρ y = ρ (valueName y)

/-- The assignment shows the variables of the state. -/
def Shows (s : Scope) (I : Interp) (ρ st : Assignment I.Value) : Prop :=
  ∀ x T, s.varType? x = some T → ρ (valueName x) = st x

theorem shows_view (s : Scope) (I : Interp) (ρ : Assignment I.Value) :
    s.Shows I ρ (Assignment.view ρ) :=
  fun _ _ _ => rfl

variable {ρ : Assignment I.Value}

theorem Standard.reads {st : Assignment I.Value} (hρ : s.Standard I ρ) (hst : s.Shows I ρ st) :
    s.Reads I [] ρ st where
  value x T hx := hst x T hx
  formula x _ hx := by rw [hρ.formula 0 x (version_of_varType? hx 0), hst x _ hx]

theorem Standard.fits (hρ : s.Standard I ρ) : s.Fits I [] (Assignment.view ρ) :=
  fun x T hx => hρ.value 0 x T (version_of_varType? hx 0)

section Choice

variable (hs : s.PlainNames) (hsep : s.Separated)
include hs hsep

open Classical in
/-- No two wire names coincide, so the values of versions can be chosen freely. -/
theorem exists_standard (st : Assignment I.Value)
    (hst : ∀ N y T, s.Version N y T → I.Dom T.sort (st y)) :
    ∃ ρ, s.Standard I ρ ∧ ∀ N y T, s.Version N y T → ρ (valueName y) = st y := by
  -- Names that are values of versions get the version's value. No formula of a
  -- version is among them, so all other names can be taken for formulas.
  let ρ : Assignment I.Value := fun n =>
    if h : ∃ y, (∃ N T, s.Version N y T) ∧ n = valueName y then st h.choose else st n
  have hvalue : ∀ N y T, s.Version N y T → ρ (valueName y) = st y := by
    intro N y T hy
    have h : ∃ z, (∃ N T, s.Version N z T) ∧ valueName y = valueName z := ⟨y, ⟨N, T, hy⟩, rfl⟩
    simp only [ρ, dif_pos h]
    rw [← valueName_inj h.choose_spec.2]
  refine ⟨ρ, ⟨fun N y T hy => ?_, fun N y hy => ?_⟩, hvalue⟩
  · rw [hvalue N y T hy]
    exact hst N y T hy
  · rw [hvalue N y _ hy]
    have h : ¬ ∃ z, (∃ N T, s.Version N z T) ∧ y = valueName z := by
      rintro ⟨z, ⟨M, T, hz⟩, h⟩
      exact hy.ne_valueName hs hsep hz h
    simp only [ρ, dif_neg h]

open Classical in
/-- Versions can have any values, for instance those of their variables. -/
theorem exists_shows (a : State I s) : ∃ ρ, s.Standard I ρ ∧ s.Shows I ρ a.get := by
  -- A version gets the value of its variable.
  let st : Assignment I.Value := fun y =>
    if h : ∃ x, (∃ T, s.varType? x = some T) ∧ ∃ N, VersionOf N x y then a.get h.choose
    else a.get y
  have hbase : ∀ N x y T, s.varType? x = some T → VersionOf N x y → st y = a.get x := by
    intro N x y T hx hy
    have h : ∃ z, (∃ T, s.varType? z = some T) ∧ ∃ N, VersionOf N z y := ⟨x, ⟨T, hx⟩, N, hy⟩
    obtain ⟨⟨U, hU⟩, M, hM⟩ := h.choose_spec
    simp only [st, dif_pos h]
    rw [hM.unique (hs _ U hU) (hs x T hx) hy]
  rcases exists_standard hs hsep st fun N y T ⟨x, hx, hy⟩ => by
    rw [hbase N x y T hx hy]
    exact a.fits x T hx with ⟨ρ, hρ, hval⟩
  refine ⟨ρ, hρ, fun x T hx => ?_⟩
  rw [hval 0 x T (version_of_varType? hx 0)]
  exact hbase 0 x x T hx (.inl rfl)

open Classical in
theorem exists_shows_like (a : State I s) {τ : Assignment I.Value} (hτ : s.Standard I τ) :
    ∃ ρ, s.Standard I ρ ∧ s.Shows I ρ a.get ∧ ∀ N y T, s.Version N y T → s.varType? y = none →
      ρ (valueName y) = τ (valueName y) := by
  let st : Assignment I.Value := fun y =>
    if s.varType? y = none then τ (valueName y) else a.get y
  have hvar : ∀ x T, s.varType? x = some T → st x = a.get x :=
    fun x T hx => if_neg (by simp [hx])
  rcases exists_standard hs hsep st fun N y T hy => by
    by_cases hnone : s.varType? y = none
    · rw [show st y = τ (valueName y) from if_pos hnone]
      exact hτ.value N y T hy
    · rcases Option.ne_none_iff_exists'.mp hnone with ⟨U, hU⟩
      rw [hvar y U hU, hy.type_unique hs (version_of_varType? hU 0)]
      exact a.fits y U hU with ⟨ρ, hρ, hval⟩
  refine ⟨ρ, hρ, fun x T hx => ?_, fun N y T hy hnone => ?_⟩
  · rw [hval 0 x T (version_of_varType? hx 0), hvar x T hx]
  · rw [hval N y T hy, show st y = τ (valueName y) from if_pos hnone]

end Choice

end Scope

/-- The term is about versions with numbers below the bound of the stock. -/
structure Term.Over (s : Scope) (X : Stock) (t : Term) : Prop where
  has : X.Has t
  free : ∀ n, Free n t → s.Known X.names n

section Over

variable {s : Scope} {W X : Stock} {t : Term}

theorem Term.Over.mono (h : Over s W t) (hWX : W ≤ X) : Over s X t :=
  ⟨h.has.mono hWX, fun n hn => (h.free n hn).mono hWX.2⟩

theorem Means.isOver {v : Meaning} (h : Means s [] v X t) : Over s X t :=
  ⟨h.has, fun n hn => (h.free n hn).known X.names⟩

theorem Term.Connective.isOver {ts : List Term} {P : (I : Interp) → Assignment I.Value → Prop}
    (h : Connective ts P X t) (hts : ∀ t ∈ ts, Over s W t) (hWX : W ≤ X) : Over s X t := by
  refine ⟨h.has, fun n hn => ?_⟩
  rcases h.free n hn with ⟨u, hu, hn⟩
  exact ((hts u hu).free n hn).mono hWX.2

/-- The value of a condition depends on the variables and their versions only. -/
theorem Term.Over.eval_congr (h : Over s W t) {I : Interp} {ρ ρ' : Assignment I.Value}
    (hagree : ∀ n, s.Known W.names n → ρ n = ρ' n) : t.eval I ρ = t.eval I ρ' :=
  Term.eval_congr t fun n hn => hagree n (h.free n hn)

end Over

end Vouch
