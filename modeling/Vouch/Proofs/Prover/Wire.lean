import Vouch.Proofs.Prover.Lines
import Vouch.Proofs.Prover.Pushed
import Vouch.Prover.Replay

/-!
# Assumptions on the Wire

An assumption pushes one formula, a retraction pops one, and a query pops what it
pushes. So the pushed lines that are not popped yet are always those of the assumptions
that are not retracted yet, one for each. Names have to be tame for any of this.

## Main definitions

* `Wire.unmatched`: The pushed lines that are not popped yet.
* `Wire.Writable`: A formula whose names are tame.
* `Wire.Course`: Requests that succeed, each with the lines written for it.
* `Wire.InStep`: What is held was pushed and is not popped yet.

## Theorems

* `Wire.course_refines`: Lines keep the discipline of a stack, and a query is answered
  from what is assumed.
-/

namespace Vouch

open List ProverM Term

variable {ω κ : Type}

/-- What a prover is asked to do. -/
inductive Request
  | assume (t : Term)
  | retract
  | isValid (t : Term)

namespace Request

/-- The term that the prover is given. -/
def term? : Request → Option Term
  | assume t | isValid t => some t
  | retract => none

def isAssume : Request → Bool
  | assume _ => true
  | _ => false

def isRetract : Request → Bool
  | retract => true
  | _ => false

/-- The assumptions after a request. There is no way to retract more than was
    assumed. -/
def track (held : List Term) : Request → Option (List Term)
  | assume t => some (held ++ [t])
  | retract => if held.isEmpty then none else some held.dropLast
  | isValid _ => some held

/-- The terms that were assumed and not retracted yet, unless more was retracted
    than was assumed. -/
def heldAfter (reqs : List Request) : Option (List Term) :=
  reqs.foldlM track []

theorem heldAfter_append_singleton (reqs : List Request) (req : Request) :
    heldAfter (reqs ++ [req]) = (heldAfter reqs).bind (track · req) := by
  simp [heldAfter, foldlM_append]

theorem heldAfter_of_append {reqs reqs' : List Request} (h : heldAfter (reqs ++ reqs') ≠ none) :
    heldAfter reqs ≠ none := by
  intro hnone
  have hboth : heldAfter (reqs ++ reqs') = (heldAfter reqs).bind (reqs'.foldlM track) := by
    simp [heldAfter, foldlM_append]
  rw [hboth, hnone] at h
  exact h rfl

theorem length_of_heldAfter : ∀ {reqs : List Request} {ts : List Term},
    heldAfter reqs = some ts →
      ts.length + reqs.countP isRetract = reqs.countP isAssume := by
  intro reqs
  induction reqs using List.reverseRecOn with
  | nil =>
    intro ts h
    cases h
    rfl
  | append_singleton reqs req ih =>
    intro ts h
    rw [heldAfter_append_singleton] at h
    rcases Option.bind_eq_some_iff.mp h with ⟨held, hheld, htrack⟩
    have hlen := ih hheld
    rw [countP_append, countP_append]
    cases req with
    | assume t =>
      cases htrack
      simp [isAssume, isRetract]
      omega
    | isValid t =>
      cases htrack
      simpa [isAssume, isRetract] using hlen
    | retract =>
      by_cases hempty : held.isEmpty = true
      · simp [track, hempty] at htrack
      · simp only [track, hempty, if_false, Bool.false_eq_true, Option.some.injEq] at htrack
        have hpos : 0 < held.length := length_pos_of_ne_nil (by simpa using hempty)
        rw [← htrack, length_dropLast]
        simp [isAssume, isRetract]
        omega

end Request

/-- Do what is asked. -/
def Prover.serve {β : Type} (P : Prover ω β) : Request → ProverM ω β Unit
  | .assume t => P.assume t
  | .retract => P.retract
  | .isValid t => P.isValid t >>= fun _ => pure ()

theorem Prover.Covers.serve {ω' β : Type} {g : ω' → ω} {q : Prover ω' β} {p : Prover ω β}
    (hc : q.Covers g p) (req : Request) : ProverM.Erases g (q.serve req) (p.serve req) := by
  cases req with
  | assume t => exact hc.assume t
  | retract => exact hc.retract
  | isValid t => exact (hc.isValid t).bind fun _ _ _ => rfl

namespace Wire

/-- What the lines start with that push a formula. -/
def pushMark : List Char := ['(', 'B', 'G', '_', 'P', 'U', 'S', 'H', ' ']

/-- The pushed lines that are not popped yet, after one more line. -/
def step (stack : List String) (line : String) : Option (List String) :=
  if pushMark <+: line.toList then some (stack ++ [line])
  else if line = pop then if stack.isEmpty then none else some stack.dropLast
  else some stack

/-- The pushed lines that are not popped yet. There are none if something was popped
    that had not been pushed. -/
def unmatched (lines : List String) : Option (List String) :=
  lines.foldlM step []

theorem unmatched_append (lines new : List String) :
    unmatched (lines ++ new) = (unmatched lines).bind (new.foldlM step) := by
  simp [unmatched, foldlM_append]

theorem starts_push (f : Term) : pushMark <+: (push f).toList := by
  have hmark : "(BG_PUSH ".toList = pushMark := by decide
  rw [push, String.toList_append, String.toList_append, append_assoc, hmark]
  exact prefix_append _ _

theorem step_push (stack : List String) (f : Term) :
    step stack (push f) = some (stack ++ [push f]) :=
  if_pos (starts_push f)

theorem step_pop {stack : List String} (h : stack ≠ []) : step stack pop = some stack.dropLast := by
  have hpush : ¬ pushMark <+: pop.toList := by decide
  rw [step, if_neg hpush, if_pos rfl, if_neg (mt List.isEmpty_iff.mp h)]

theorem step_tame (stack : List String) {line : String} (h : Tame line) :
    step stack line = some stack := by
  have hmark : commandMark <+: pushMark := by decide
  have hpop : commandMark <+: pop.toList := by decide
  rw [step, if_neg fun hp => h.mark (hmark.trans hp), if_neg]
  rintro rfl
  exact h.mark hpop

theorem foldlM_push (stack : List String) (ps : List Term) :
    (ps.map push).foldlM step stack = some (stack ++ ps.map push) := by
  induction ps generalizing stack with
  | nil => simp
  | cons p ps ih =>
    rw [map_cons, foldlM_cons, step_push]
    exact (ih _).trans (by simp)

theorem foldlM_pop (stack lines : List String) :
    (List.replicate lines.length pop).foldlM step (stack ++ lines) = some stack := by
  induction lines using List.reverseRecOn with
  | nil => simp
  | append_singleton lines line ih =>
    rw [length_append, length_singleton, replicate_succ, foldlM_cons,
      ← append_assoc, step_pop (by simp), dropLast_concat]
    exact ih

theorem foldlM_query (stack : List String) (ps : List Term) {query : String} (h : Tame query) :
    (ps.map push ++ query :: List.replicate ps.length pop).foldlM step stack = some stack := by
  have hpop := foldlM_pop stack (ps.map push)
  rw [length_map] at hpop
  rw [foldlM_append, foldlM_push, Option.bind_eq_bind, Option.bind_some, foldlM_cons,
    step_tame _ h]
  exact hpop

/-- The term is a formula, its names are tame, and none of them is kept for shared
    nodes. -/
structure Writable (t : Term) : Prop where
  isFormula : t.sort = .formula
  wellSorted : WellSorted t
  inline : Everywhere Head.Inline t
  unshared : ∀ k, ¬ Mentions (sharedName k) t

theorem Writable.shareBelow {t : Term} (h : Writable t) (N : Nat) : ShareBelow N t :=
  shareBelow_of_not_mentions fun k _ => h.unshared k

/-- The term can be written, and the builder made it before the supply got there. -/
structure Sendable (s : Supply) (t : Term) : Prop extends Writable t where
  made : ∃ W : Stock, W.Fits s ∧ t ∈ W.terms

theorem not_mem_push {f : Term} (h : Everywhere Head.Inline f) : '\n' ∉ (push f).toList := by
  have htext := (tame_text f h).newline
  simp [push, htext]

theorem not_mem_pop : '\n' ∉ pop.toList := by decide

section Talking

variable {α : Type} {host : Host ω κ} {b b' : Child κ}

theorem Yields.of_build_bind {n : Fresh α} {γ : Type} {k : α → ProverM ω (Child κ) γ}
    {w w' : World ω} {r : Except ProverError γ} (h : Yields (build n >>= k) b w r b' w') :
    ∃ a s, n.run w.supply = (a, s) ∧ Yields (k a) b { w with supply := s } r b' w' :=
  ⟨_, _, rfl, h⟩

variable {w w' : World (ω × List String)} {text : String}

theorem Yields.of_send (htext : '\n' ∉ text.toList)
    (h : Yields (talk (Child.send host.recording text)) b w (.ok ()) b' w') :
    w'.outside.2 = w.outside.2 ++ [text] ∧ w'.supply = w.supply := by
  rcases Yields.of_talk h with ⟨hrun, hsupply⟩
  exact ⟨Child.log_of_send htext hrun, hsupply⟩

theorem Yields.of_query (htext : '\n' ∉ text.toList) {verdict : Bool}
    (h : Yields (talk (Child.query host.recording text)) b w (.ok verdict) b' w') :
    w'.outside.2 = w.outside.2 ++ [text] ∧ w'.supply = w.supply := by
  rcases Yields.of_talk h with ⟨hrun, hsupply⟩
  exact ⟨Child.log_of_query htext hrun, hsupply⟩

end Talking

section Building

variable {th : Theory} (hth : th.Advances) {s s' : Supply}
include hth

theorem exists_unfolds {t : Term} {u : Unshared} (hu : (th.unshare t).run s = (u, s'))
    (ht : Sendable s t) :
    ∃ X : Stock, X.Fits s' ∧ Unfolds s.nextName X.names t u.definitions (u.termOr t) ∧
      ∀ f ∈ u.definitions ++ [u.termOr t], f ∈ X.terms ∧ Everywhere Head.Inline f := by
  rcases ht.made with ⟨W, hW, hmem⟩
  have hiff : Head.Inline { op := .iff, sort := .formula } := .of_payload (by simp) (by simp)
  have heq : Head.Inline { op := .eq, sort := .formula } := .of_payload (by simp) (by simp)
  rcases Theory.builds_unshare hth hmem ht.isFormula ht.wellSorted (ht.shareBelow _) ht.inline
    inline_sharedHead hiff heq s hW with ⟨X, _, hX, hunfolds, hmade⟩
  rw [hu] at hX hunfolds hmade
  rw [hW.names_eq]
  exact ⟨X, hX, hunfolds, hmade⟩

theorem conjoins_of_run {X : Stock} (hX : X.Fits s) {ts : List Term} {f : Term}
    (hf : (th.and ts).run s = (f, s'))
    (hts : ∀ t ∈ ts, t ∈ X.terms ∧ Everywhere Head.Inline t) :
    X.names ≤ s'.nextName ∧ Conjoins ts f ∧ Everywhere Head.Inline f := by
  rcases Theory.builds_conjunction hth (fun t ht => (hts t ht).1) s hX with ⟨Y, hXY, hY, hjoins⟩
  rw [hf] at hY hjoins
  refine ⟨?_, hjoins, hjoins.everywhere ?_ ?_ fun t ht => (hts t ht).2⟩
  · rw [hY.names_eq]
    exact hXY.2
  · exact .of_payload (by simp) (by simp)
  · exact .of_payload (by simp) (by simp)

end Building

/-- The lines that are written when the prover is asked something. -/
def written (th : Theory) (host : Host ω κ) (c : ProverCommand) (b : Child κ) (w : World ω)
    (req : Request) : List String :=
  ((((Prover.wire th host.recording c).serve req).run.run b).run w.blank).2.outside.2

section Requests

variable {th : Theory} {host : Host ω κ} {c : ProverCommand} {b b' : Child κ} {w w' : World ω}
  {t : Term}

theorem yields_written {req : Request}
    (h : Yields ((Prover.wire th host c).serve req) b w (.ok ()) b' w') :
    Yields ((Prover.wire th host.recording c).serve req) b w.blank (.ok ()) b'
      { supply := w'.supply, outside := (w'.outside, written th host c b w req) } := by
  -- The run with notes comes to something, and seen without them that is what `h` says.
  rcases exists_yields ((Prover.wire th host.recording c).serve req) b w.blank with
    ⟨r, b₁, w₁, hrec⟩
  have hwritten : written th host c b w req = w₁.outside.2 :=
    congrArg (fun done => done.2.outside.2) hrec
  have hplain : Yields ((Prover.wire th host c).serve req) b w r b₁ w₁.plain :=
    ((Prover.covers_recording th host c).serve req).yields hrec
  cases hplain.symm.trans h
  rw [hwritten]
  exact hrec

theorem written_assume (hth : th.Advances) (ht : Sendable w.supply t)
    (h : Yields ((Prover.wire th host c).serve (.assume t)) b w (.ok ()) b' w') :
    ∃ f, written th host c b w (.assume t) = [push f] ∧
      Represents w.supply.nextName w'.supply.nextName t f := by
  have hrec : Yields (assume th host.recording t) b w.blank _ b' _ := yields_written h
  rcases Yields.of_build_bind hrec with ⟨u, s₁, hu, hrec⟩
  rcases Yields.of_build_bind hrec with ⟨f, s₂, hf, hsend⟩
  rcases exists_unfolds hth hu ht with ⟨X, hX, hunfolds, hmade⟩
  rcases conjoins_of_run hth hX hf hmade with ⟨hle, hjoins, hinline⟩
  rcases Yields.of_send (not_mem_push hinline) hsend with ⟨hlog, hsupply⟩
  have hsupply : w'.supply = s₂ := hsupply
  rw [hsupply]
  exact ⟨f, hlog, (represents_of_unfolds hunfolds hjoins (ht.shareBelow 0)).mono hle⟩

theorem written_retract
    (h : Yields ((Prover.wire th host c).serve .retract) b w (.ok ()) b' w') :
    written th host c b w .retract = [pop] ∧ w'.supply = w.supply :=
  Yields.of_send not_mem_pop (yields_written h)

theorem written_isValid (hth : th.Advances) (ht : Sendable w.supply t)
    (h : Yields ((Prover.wire th host c).serve (.isValid t)) b w (.ok ()) b' w') :
    ∃ (ds ps : List Term) (q : Term),
      Unfolds w.supply.nextName w'.supply.nextName t ds q ∧ Tame q.text ∧
      (∀ (R : Reading) (E : Env R.Value), (∀ p ∈ ps, R.Holds p E) ↔ ∀ d ∈ ds, R.Holds d E) ∧
      written th host c b w (.isValid t) =
        ps.map push ++ q.text :: List.replicate ps.length pop := by
  rcases Yields.of_bind_ok (yields_written h) with ⟨verdict, b₁, w₁, hrec, hpure⟩
  have hw₁ : w₁ = { supply := w'.supply, outside := (w'.outside, written th host c b w _) } :=
    congrArg Prod.snd hpure
  rcases Yields.of_build_bind hrec with ⟨u, s₁, hu, hrec⟩
  rcases exists_unfolds hth hu ht with ⟨X, hX, hunfolds, hmade⟩
  rw [forall_mem_append, forall_mem_singleton] at hmade
  have htame := tame_text _ hmade.2.2
  -- Without definitions nothing is pushed, otherwise their conjunction is.
  by_cases hempty : u.definitions.isEmpty = true
  · rw [if_pos hempty] at hrec
    rcases Yields.of_query htame.newline hrec with ⟨hlog, hsupply⟩
    rw [hw₁] at hlog hsupply
    have hsupply : w'.supply = s₁ := hsupply
    have hle : X.names ≤ w'.supply.nextName := by rw [hsupply, hX.names_eq]
    refine ⟨_, [], _, hunfolds.mono hle, htame, fun R E => ?_, hlog⟩
    rw [List.isEmpty_iff.mp hempty]
  · rw [if_neg hempty] at hrec
    rcases Yields.of_build_bind hrec with ⟨d, s₂, hd, hrec⟩
    rcases conjoins_of_run hth hX hd hmade.1 with ⟨hle, hjoins, hinline⟩
    rcases Yields.of_bind_ok hrec with ⟨_, b₂, w₂, hpush, hrec⟩
    rcases Yields.of_bind_ok hrec with ⟨_, b₃, w₃, hquery, hrec⟩
    rcases Yields.of_bind_ok hrec with ⟨_, b₄, w₄, hpop, hreturn⟩
    have hw₄ : w₄ = w₁ := congrArg Prod.snd hreturn
    rcases Yields.of_send (not_mem_push hinline) hpush with ⟨hlog₂, hsupply₂⟩
    rcases Yields.of_query htame.newline hquery with ⟨hlog₃, hsupply₃⟩
    rcases Yields.of_send not_mem_pop hpop with ⟨hlog₄, hsupply₄⟩
    rw [hlog₃, hlog₂, hw₄, hw₁] at hlog₄
    rw [hsupply₃, hsupply₂, hw₄, hw₁] at hsupply₄
    have hsupply : w'.supply = s₂ := hsupply₄
    rw [← hsupply] at hle
    refine ⟨_, [d], _, hunfolds.mono hle, htame, fun R E => ?_, hlog₄⟩
    rw [forall_mem_singleton]
    exact hjoins.holds_iff R E

end Requests

/-- The requests so far and the lines that were written for them. What is held was
    pushed and is not popped yet, and nothing else is there. -/
structure InStep (N : Nat) (reqs : List Request) (lines : List String) (ts fs : List Term) :
    Prop where
  held : Request.heldAfter reqs = some ts
  stack : unmatched lines = some (fs.map push)
  pushed : Pushed N ts fs

/-- Requests that succeed one after the other, each with the lines that are written
    for it. In between terms may be built. -/
inductive Course (th : Theory) (host : Host ω κ) (c : ProverCommand) :
    Child κ → World ω → List (Request × List String) → Child κ → World ω → Prop
  | nil {b w} : Course th host c b w [] b w
  | cons {b w s req b₁ w₁ rest b' w'} : w.supply.Advances s →
      (∀ t, req.term? = some t → Sendable s t) →
      Yields ((Prover.wire th host c).serve req) b { w with supply := s } (.ok ()) b₁ w₁ →
      Course th host c b₁ w₁ rest b' w' →
      Course th host c b w ((req, written th host c b { w with supply := s } req) :: rest) b' w'

section Courses

variable {th : Theory} {host : Host ω κ} {c : ProverCommand} {b b' : Child κ} {w w' : World ω}
  {reqs : List Request} {lines : List String} {ts fs : List Term} {N : Nat}

theorem inStep_nil (N : Nat) : InStep N [] [] [] [] :=
  ⟨rfl, rfl, .nil⟩

theorem InStep.mono {M : Nat} (h : InStep N reqs lines ts fs) (hM : N ≤ M) :
    InStep M reqs lines ts fs :=
  ⟨h.held, h.stack, h.pushed.mono hM⟩

theorem InStep.length_stack (h : InStep N reqs lines ts fs) :
    (fs.map push).length + reqs.countP Request.isRetract = reqs.countP Request.isAssume := by
  rw [length_map, h.pushed.length_eq]
  exact Request.length_of_heldAfter h.held

theorem Course.of_append {before rest : List (Request × List String)}
    (h : Course th host c b w (before ++ rest) b' w') :
    ∃ b₁ w₁, Course th host c b w before b₁ w₁ ∧ Course th host c b₁ w₁ rest b' w' := by
  induction before generalizing b w with
  | nil => exact ⟨b, w, .nil, h⟩
  | cons _ before ih =>
    cases h with
    | cons hs hsend hserve htail =>
      rcases ih htail with ⟨b₁, w₁, hbefore, hrest⟩
      exact ⟨b₁, w₁, .cons hs hsend hserve hbefore, hrest⟩

theorem InStep.serve (hth : th.Advances) (h : InStep w.supply.nextName reqs lines ts fs)
    {req : Request} (hsend : ∀ t, req.term? = some t → Sendable w.supply t)
    (hserve : Yields ((Prover.wire th host c).serve req) b w (.ok ()) b' w')
    (hheld : Request.heldAfter (reqs ++ [req]) ≠ none) :
    ∃ ts' fs', InStep w'.supply.nextName (reqs ++ [req])
      (lines ++ written th host c b w req) ts' fs' := by
  have hafter : Request.heldAfter (reqs ++ [req]) = Request.track ts req := by
    rw [Request.heldAfter_append_singleton, h.held, Option.bind_some]
  have hlines : unmatched (lines ++ written th host c b w req) =
      (written th host c b w req).foldlM step (fs.map push) := by
    rw [unmatched_append, h.stack, Option.bind_some]
  -- One case for each kind of request: push one formula, pop one, or leave all of them.
  cases req with
  | assume t =>
    have ht := hsend t rfl
    rcases written_assume hth ht hserve with ⟨f, hwritten, hf⟩
    refine ⟨ts ++ [t], fs ++ [f], hafter, ?_, h.pushed.snoc (ht.shareBelow 0) hf⟩
    rw [hlines, hwritten, map_append]
    exact foldlM_push _ [f]
  | retract =>
    rcases written_retract hserve with ⟨hwritten, hsupply⟩
    -- Something is held, as nothing too much is retracted, so something is pushed.
    have hts : ts ≠ [] := by
      rintro rfl
      exact hheld hafter
    have hfs : fs.map push ≠ [] := by
      rw [ne_eq, map_eq_nil_iff, ← length_eq_zero_iff, h.pushed.length_eq,
        length_eq_zero_iff]
      exact hts
    have htrack : Request.track ts .retract = some ts.dropLast :=
      if_neg (mt List.isEmpty_iff.mp hts)
    rw [hsupply]
    refine ⟨ts.dropLast, fs.dropLast, hafter.trans htrack, ?_, h.pushed.dropLast⟩
    rw [hlines, hwritten, foldlM_cons, step_pop hfs, map_dropLast]
    rfl
  | isValid t =>
    rcases written_isValid hth (hsend t rfl) hserve with ⟨_, ps, q, hu, htame, _, hwritten⟩
    refine ⟨ts, fs, hafter, ?_, h.pushed.mono hu.le⟩
    rw [hlines, hwritten, foldlM_query _ ps htame]

theorem InStep.course (hth : th.Advances) {history : List (Request × List String)}
    (hcourse : Course th host c b w history b' w')
    (h : InStep w.supply.nextName reqs lines ts fs)
    (hheld : Request.heldAfter (reqs ++ history.map Prod.fst) ≠ none) :
    ∃ ts' fs', InStep w'.supply.nextName (reqs ++ history.map Prod.fst)
      (lines ++ history.flatMap Prod.snd) ts' fs' := by
  induction hcourse generalizing reqs lines ts fs with
  | nil => exact ⟨ts, fs, by simpa using h⟩
  | @cons b w s req b₁ w₁ rest b' w' hs hsend hserve _ ih =>
    -- The first request moves from the history to what was done before.
    rw [map_cons, append_cons] at hheld
    have hreq : Request.heldAfter (reqs ++ [req]) ≠ none := Request.heldAfter_of_append hheld
    rcases InStep.serve hth (h.mono hs.name) hsend hserve hreq with ⟨ts₁, fs₁, h₁⟩
    rcases ih h₁ hheld with ⟨ts', fs', h'⟩
    refine ⟨ts', fs', ?_⟩
    rw [map_cons, append_cons, flatMap_cons, ← append_assoc]
    exact h'

/-- In a course of requests that succeed, the pushed lines that are not popped yet
    are always as many as the assumptions that are not retracted yet. An assumption
    is one line and a retraction is one line. A query is one line too, after lines
    that push its definitions and before as many that pop them. It is entailed by
    the formulas that are pushed by then if and only if the term that was asked for
    is entailed by the terms that are assumed by then. -/
theorem course_refines (hth : th.Advances) {before after : List (Request × List String)}
    {req : Request} (h : Course th host c b w (before ++ (req, lines) :: after) b' w')
    (hheld : Request.heldAfter ((before ++ (req, lines) :: after).map Prod.fst) ≠ none) :
    (∃ stack, unmatched ((before ++ [(req, lines)]).flatMap Prod.snd) = some stack ∧
      stack.length + ((before ++ [(req, lines)]).map Prod.fst).countP Request.isRetract =
        ((before ++ [(req, lines)]).map Prod.fst).countP Request.isAssume) ∧
    (∀ t, req = .assume t → ∃ f, lines = [push f]) ∧
    (req = .retract → lines = [pop]) ∧
    ∀ t, req = .isValid t → ∃ (ts fs ps : List Term) (q : Term),
      Request.heldAfter (before.map Prod.fst) = some ts ∧
      lines = ps.map push ++ q.text :: List.replicate ps.length pop ∧
      unmatched (before.flatMap Prod.snd ++ ps.map push) = some (fs.map push) ∧
      ∀ R : Reading, R.Entails fs q ↔ R.Entails ts t := by
  rw [map_append, map_cons, append_cons] at hheld
  have hupto := Request.heldAfter_of_append hheld
  rcases h.of_append with ⟨b₀, w₀, hbefore, hrest⟩
  rcases InStep.course hth hbefore (inStep_nil _) (Request.heldAfter_of_append hupto) with
    ⟨ts, fs, hin⟩
  rw [nil_append, nil_append] at hin
  cases hrest with
  | cons hs hsend hserve _ =>
    -- Terms that were built in between take numbers, which does no harm.
    replace hin := hin.mono hs.name
    refine ⟨?_, ?_, ?_, ?_⟩
    · rcases hin.serve hth hsend hserve hupto with ⟨ts', fs', hin'⟩
      refine ⟨fs'.map push, ?_, ?_⟩
      · rw [flatMap_append, flatMap_singleton]
        exact hin'.stack
      · rw [map_append, map_singleton]
        exact hin'.length_stack
    · rintro t rfl
      rcases written_assume hth (hsend t rfl) hserve with ⟨f, hwritten, _⟩
      exact ⟨f, hwritten⟩
    · rintro rfl
      exact (written_retract hserve).1
    · rintro t rfl
      have ht := hsend t rfl
      rcases written_isValid hth ht hserve with ⟨ds, ps, q, hu, _, hps, hwritten⟩
      refine ⟨ts, fs ++ ps, ps, q, hin.held, hwritten, ?_, fun R => ?_⟩
      · rw [unmatched_append, hin.stack, Option.bind_some, foldlM_push, map_append]
      · exact hin.pushed.entails_iff hu (ht.shareBelow 0) (hps R)

end Courses

theorem yields_of_isOk {β : Type} {m : ProverM ω β Unit} {b : β} {w : World ω}
    (h : ((m.run.run b).run w).1.1.isOk = true) :
    Yields m b w (.ok ()) ((m.run.run b).run w).1.2 ((m.run.run b).run w).2 := by
  rcases exists_yields m b w with ⟨r, b', w', hm⟩
  have hrun : (m.run.run b).run w = ((r, b'), w') := hm
  rw [hrun] at h ⊢
  cases r with
  | ok => exact hm
  | error e => cases h

theorem Course.cons_of_isOk {th : Theory} {host : Host ω κ} {c : ProverCommand} {b b' : Child κ}
    {w w' : World ω} {req : Request} {lines : List String} {rest : List (Request × List String)}
    (hsend : ∀ t, req.term? = some t → Sendable w.supply t)
    (hok : ((((Prover.wire th host c).serve req).run.run b).run w).1.1.isOk = true)
    (hlines : written th host c b w req = lines)
    (hrest : Course th host c ((((Prover.wire th host c).serve req).run.run b).run w).1.2
      ((((Prover.wire th host c).serve req).run.run b).run w).2 rest b' w') :
    Course th host c b w ((req, lines) :: rest) b' w' := by
  rw [← hlines]
  exact .cons ⟨rfl, Nat.le_refl _, Nat.le_refl _⟩ hsend (yields_of_isOk hok) hrest

section Sample

/-- A variable for formulas. -/
def proposition (index : Nat) (n : String) : Term :=
  .node ⟨0, index⟩ { op := .var, sort := .formula, payload := some (.name n) } [] []

/-- A connective with two operands. -/
def joined (index : Nat) (op : Op) (a b : Term) : Term :=
  .node ⟨0, index⟩ { op, sort := .formula } [a, b] []

/-- A disjunction that stands on both sides of a connective. -/
def onBothSides (index : Nat) (op : Op) : Term :=
  joined index op (joined 2 .or (proposition 0 "p") (proposition 1 "q"))
    (joined 2 .or (proposition 0 "p") (proposition 1 "q"))

variable {index : Nat}

theorem writable_proposition {n : String} (hn : Tame n) (hshared : ∀ k, sharedName k ≠ n) :
    Writable (proposition index n) where
  isFormula := rfl
  wellSorted := .operator (by simp [proposition, Term.op, Term.head]) rfl
    (by simp [proposition, children]) (by simp [proposition, children])
  inline := by
    refine .intro ⟨fun m hm => ?_, fun f hf => ?_⟩ (by simp [proposition, children])
    · cases hm
      exact hn
    · cases hf
  unshared k h := by
    cases h with
    | var hname => exact hshared k (Option.some.inj hname).symm
    | operand hc _ => exact absurd hc not_mem_nil

theorem writable_joined {op : Op} {a b : Term} (hop : op.isConnective = true) (ha : Writable a)
    (hb : Writable b) : Writable (joined index op a b) where
  isFormula := rfl
  wellSorted := .connective hop rfl (by simp [joined, children, ha.isFormula, hb.isFormula])
    (by simp [joined, children, ha.wellSorted, hb.wellSorted])
  inline := by
    refine .intro (.of_payload (fun m hm => ?_) fun f hf => ?_)
      (by simp [joined, children, ha.inline, hb.inline])
    · cases hm
    · have happ : op = .app f := hf
      simp [happ, Op.isConnective] at hop
  unshared k h := by
    cases h with
    | var hname =>
      have hvar : op = .var := op_of_name? hname
      simp [hvar, Op.isConnective] at hop
    | @operand _ c hc h =>
      have hor : c = a ∨ c = b := by simpa [joined, children] using hc
      rcases hor with rfl | rfl
      · exact ha.unshared k h
      · exact hb.unshared k h

theorem sendable_onBothSides {op : Op} (hop : op.isConnective = true) (hindex : 2 < index)
    {s : Supply} (hs : index < s.nextNode) : Sendable s (onBothSides index op) := by
  have hshared : ∀ n : String, n.toList.head? ≠ some 's' → ∀ k, sharedName k ≠ n := by
    rintro n hn k rfl
    simp [sharedName, versionName, shareName] at hn
  have hp : Writable (proposition 0 "p") := writable_proposition (by decide) (hshared _ (by decide))
  have hq : Writable (proposition 1 "q") := writable_proposition (by decide) (hshared _ (by decide))
  have hor : Writable (joined 2 .or (proposition 0 "p") (proposition 1 "q")) :=
    writable_joined rfl hp hq
  refine ⟨writable_joined hop hor hor, ?_⟩
  -- The stock of the formula and its parts.
  refine ⟨⟨{t | t ∈ onBothSides index op :: (onBothSides index op).children ++
    [proposition 0 "p", proposition 1 "q"]}, s.nextName, ?_, ?_⟩, ⟨?_, rfl⟩, mem_cons_self⟩
  · simp [onBothSides, joined, proposition, children]
  · simp [onBothSides, joined, proposition, children, ident]
    omega
  · simp [onBothSides, joined, proposition, children, ident]
    omega

/-- What is sent if the disjunction is shared. -/
def sharedHistory : List (Request × List String) :=
  [(.assume (onBothSides 3 .and),
      ["(BG_PUSH (AND (IFF share$$0 (OR p q)) (AND share$$0 share$$0)))"]),
    (.isValid (onBothSides 4 .or),
      ["(BG_PUSH (IFF share$$1 (OR p q)))", "(OR share$$1 share$$1)", "(BG_POP)"]),
    (.retract, ["(BG_POP)"])]

theorem course_sharedHistory : ∃ b' w', Course .standard (.replay "prover" fun _ => false)
    { kind := .simplify, path := "prover" } { program := [] }
    { supply := { nextNode := 5 }, outside := {} } sharedHistory b' w' := by
  refine ⟨_, _, .cons_of_isOk ?_ (by decide +kernel) (by decide +kernel)
    (.cons_of_isOk ?_ (by decide +kernel) (by decide +kernel)
      (.cons_of_isOk ?_ (by decide +kernel) (by decide +kernel) .nil))⟩
  · rintro t ⟨⟩
    exact sendable_onBothSides rfl (by decide) (by decide)
  · rintro t ⟨⟩
    exact sendable_onBothSides rfl (by decide) (by decide +kernel)
  · rintro t ⟨⟩

/-- The formulas of the assumption and of the query both define a variable for the
    disjunction, and the query follows from the assumption. -/
theorem course_refines_sharedHistory :
    (∃ b' w', Course .standard (.replay "prover" fun _ => false)
      { kind := .simplify, path := "prover" } { program := [] }
      { supply := { nextNode := 5 }, outside := {} } sharedHistory b' w') ∧
    Request.heldAfter (sharedHistory.map Prod.fst) ≠ none ∧
    ∃ (ts fs ps : List Term) (q : Term),
      Request.heldAfter [.assume (onBothSides 3 .and)] = some ts ∧
      ["(BG_PUSH (IFF share$$1 (OR p q)))", "(OR share$$1 share$$1)", "(BG_POP)"] =
        ps.map push ++ q.text :: List.replicate ps.length pop ∧
      unmatched (["(BG_PUSH (AND (IFF share$$0 (OR p q)) (AND share$$0 share$$0)))"] ++
        ps.map push) = some (fs.map push) ∧
      ∀ R : Reading, R.Entails fs q ↔ R.Entails ts (onBothSides 4 .or) := by
  have hheld : Request.heldAfter (sharedHistory.map Prod.fst) ≠ none := by
    intro h
    cases h
  rcases course_sharedHistory with ⟨b', w', h⟩
  have h' : Course _ _ _ _ _ (sharedHistory.take 1 ++ (.isValid (onBothSides 4 .or),
      ["(BG_PUSH (IFF share$$1 (OR p q)))", "(OR share$$1 share$$1)", "(BG_POP)"]) ::
      sharedHistory.drop 2) b' w' := h
  exact ⟨⟨b', w', h⟩, hheld, (course_refines Theory.advances_standard h' hheld).2.2.2 _ rfl⟩

-- Without tame names one assumption can be two lines that both push something.
example : written .standard (.replay "prover" fun _ => false)
    { kind := .simplify, path := "prover" } { program := [] }
    { supply := { nextNode := 5 }, outside := {} } (.assume (proposition 0 "p)\n(BG_PUSH FALSE")) =
      ["(BG_PUSH p)", "(BG_PUSH FALSE)"] := by
  decide +kernel

end Sample

end Wire

end Vouch
