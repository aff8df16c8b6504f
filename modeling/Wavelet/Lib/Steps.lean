import Mathlib.Logic.Relation

/-!
# Running in `Except` and along steps

A computation in `Except` that returns has run each of its parts, and one that fails has
failed in one of them. A fold whose steps stay inside a reflexive and transitive relation
stays inside it, and a property kept by every step of a relation holds after every run of
steps.
-/

namespace Steps

variable {ε α β σ : Type*}

theorem bind_ok {x : Except ε α} {f : α → Except ε β} {b : β} (h : x.bind f = .ok b) :
    ∃ a, x = .ok a ∧ f a = .ok b := by
  cases x with
  | error e => cases h
  | ok a => exact ⟨a, rfl, h⟩

theorem bind_ok' {α β : Type _} {x : Except ε α} {f : α → Except ε β} {b : β} (h : (x >>= f) = .ok b) :
    ∃ a, x = .ok a ∧ f a = .ok b := bind_ok h

theorem map_ok {x : Except ε α} {f : α → β} {b : β} (h : x.map f = .ok b) : ∃ a, x = .ok a ∧ f a = b := by
  cases x with
  | error e => cases h
  | ok a => exact ⟨a, rfl, Except.ok.inj h⟩

open Relation

/-- Every turn of a fold is a run of steps, so the fold is one. -/
theorem foldl_steps {r : σ → σ → Prop} {f : σ → α → σ} {l : List α}
    (step : ∀ s a, a ∈ l → ReflTransGen r s (f s a)) (s : σ) : ReflTransGen r s (l.foldl f s) := by
  induction l generalizing s with
  | nil => exact .refl
  | cons a l ih =>
    exact (step s a List.mem_cons_self).trans
      (ih (fun s b member => step s b (List.mem_cons_of_mem _ member)) _)

theorem foldlM_steps {r : σ → σ → Prop} {f : σ → α → Except ε σ} {l : List α}
    (step : ∀ s a s', a ∈ l → f s a = .ok s' → ReflTransGen r s s') {s s' : σ} (h : l.foldlM f s = .ok s') :
    ReflTransGen r s s' := by
  induction l generalizing s with
  | nil => cases h; exact .refl
  | cons a l ih =>
    obtain ⟨mid, first, rest⟩ := bind_ok' (by rwa [List.foldlM_cons] at h)
    exact (step s a mid List.mem_cons_self first).trans
      (ih (fun s b s' member => step s b s' (List.mem_cons_of_mem _ member)) rest)

/-- The run rule: what every step keeps, every run keeps. -/
theorem run_inv {r : σ → σ → Prop} {p : σ → Prop} (step : ∀ s s', r s s' → p s → p s') {s s' : σ}
    (run : ReflTransGen r s s') (start : p s) : p s' := by
  induction run with
  | refl => exact start
  | tail _ last ih => exact step _ _ last ih

/-- The run rule under a condition on the last state that every earlier state inherits. -/
theorem run_inv_of {r : σ → σ → Prop} {c p : σ → Prop} (earlier : ∀ s s', r s s' → c s' → c s)
    (step : ∀ s s', r s s' → c s' → p s → p s') {s s' : σ} (run : ReflTransGen r s s') (last : c s')
    (start : p s) :
    p s' := by
  induction run with
  | refl => exact start
  | tail _ final ih => exact step _ _ final last (ih (earlier _ _ final last))

/-- The run rule for a fold whose turns keep the property. -/
theorem foldl_inv {p : σ → Prop} {f : σ → α → σ} {l : List α} (step : ∀ s a, a ∈ l → p s → p (f s a)) {s : σ}
    (start : p s) : p (l.foldl f s) := by
  induction l generalizing s with
  | nil => exact start
  | cons a l ih =>
    exact ih (fun s b member => step s b (List.mem_cons_of_mem _ member)) (step s a List.mem_cons_self start)

/-- The same rule in `Except`. -/
theorem foldlM_inv {p : σ → Prop} {f : σ → α → Except ε σ} {l : List α}
    (step : ∀ s a s', a ∈ l → f s a = .ok s' → p s → p s') {s s' : σ} (h : l.foldlM f s = .ok s')
    (start : p s) :
    p s' := by
  induction l generalizing s with
  | nil => cases h; exact start
  | cons a l ih =>
    obtain ⟨mid, first, rest⟩ := bind_ok' (by rwa [List.foldlM_cons] at h)
    exact ih (fun s b s' member => step s b s' (List.mem_cons_of_mem _ member)) rest
      (step s a mid List.mem_cons_self first start)

/-- The same rule for a property of what is left of the list. -/
theorem foldlM_rest {p : List α → σ → Prop} {f : σ → α → Except ε σ} {l : List α}
    (step : ∀ s a rest s', a ∈ l → f s a = .ok s' → p (a :: rest) s → p rest s') {s s' : σ}
    (h : l.foldlM f s = .ok s') (start : p l s) : p [] s' := by
  induction l generalizing s with
  | nil => cases h; exact start
  | cons a l ih =>
    obtain ⟨mid, first, rest⟩ := bind_ok' (by rwa [List.foldlM_cons] at h)
    exact ih (fun s b rest s' member => step s b rest s' (List.mem_cons_of_mem _ member)) rest
      (step s a l mid List.mem_cons_self first start)

theorem foldl_rest {p : List α → σ → Prop} {f : σ → α → σ}
    (step : ∀ s a rest, p (a :: rest) s → p rest (f s a)) {l : List α} {s : σ} (start : p l s) :
    p [] (l.foldl f s) := by
  induction l generalizing s with
  | nil => exact start
  | cons a l ih => exact ih (step s a l start)

/-- Two folds agree as long as their turns agree on the states they go through. -/
theorem foldl_congr {p : σ → Prop} {f g : σ → α → σ} {l : List α}
    (turn : ∀ s a, p s → f s a = g s a ∧ p (g s a)) {s : σ} (start : p s) : l.foldl f s = l.foldl g s := by
  induction l generalizing s with
  | nil => rfl
  | cons a l ih =>
    obtain ⟨same, next⟩ := turn s a start
    rw [List.foldl_cons, List.foldl_cons, same]
    exact ih next

/-- A run of labelled steps, with the labels newest first. -/
inductive Trail (r : σ → α → σ → Prop) (start : σ) : List α → σ → Prop
  | nil : Trail r start [] start
  | cons {labels s a s'} : Trail r start labels s → r s a s' → Trail r start (a :: labels) s'

theorem Trail.eq_of_nil {r : σ → α → σ → Prop} {start last : σ} (trail : Trail r start [] last) :
    last = start := by
  cases trail
  rfl

theorem Trail.of_single {r : σ → α → σ → Prop} {start last : σ} {a : α}
    (trail : Trail r start [a] last) : r start a last := by
  cases trail with
  | cons before here =>
    rwa [before.eq_of_nil] at here

/-- The run rule with labels. -/
theorem Trail.inv {r : σ → α → σ → Prop} {p : List α → σ → Prop} {start last : σ} {labels : List α}
    (trail : Trail r start labels last) (none : p [] start)
    (step : ∀ labels s a s', r s a s' → p labels s → p (a :: labels) s') :
    p labels last := by
  induction trail with
  | nil => exact none
  | cons _ here ih => exact step _ _ _ _ here ih

/-! ## Errors -/

/-- Every error of `x` satisfies `p`. -/
def Fails (p : ε → Prop) (x : Except ε α) : Prop := ∀ e, x = .error e → p e

namespace Fails

variable {p : ε → Prop}

theorem ok (a : α) : Fails p (.ok a : Except ε α) := fun _ no => by cases no

theorem error {e : ε} (h : p e) : Fails p (.error e : Except ε α) := fun _ same => by cases same; exact h

theorem mono {q : ε → Prop} {x : Except ε α} (more : ∀ e, p e → q e) (h : Fails p x) : Fails q x :=
  fun e same => more e (h e same)

theorem bind {x : Except ε α} {f : α → Except ε β} (first : Fails p x)
    (rest : ∀ a, x = .ok a → Fails p (f a)) :
    Fails p (x.bind f) := by
  cases x with
  | error e => exact fun _ same => by cases same; exact first e rfl
  | ok a => exact rest a rfl

theorem map {x : Except ε α} (f : α → β) (h : Fails p x) : Fails p (x.map f) := by
  cases x with
  | error e => exact fun _ same => by cases same; exact h e rfl
  | ok a => exact ok (f a)

/-- A fold whose turns keep `q` fails only as a turn fails. -/
theorem foldlM {q : σ → Prop} {f : σ → α → Except ε σ} {l : List α}
    (turn : ∀ s a, a ∈ l → q s → Fails p (f s a))
    (keeps : ∀ s a s', a ∈ l → q s → f s a = .ok s' → q s') {s : σ} (start : q s) :
    Fails p (l.foldlM f s) := by
  induction l generalizing s with
  | nil => exact ok s
  | cons a l ih =>
    rw [List.foldlM_cons]
    refine bind (turn s a List.mem_cons_self start) fun mid first =>
      ih (fun s b member => ?_) (fun s b s' member => ?_) ?_
    · exact turn s b (List.mem_cons_of_mem _ member)
    · exact keeps s b s' (List.mem_cons_of_mem _ member)
    · exact keeps s a mid List.mem_cons_self start first

end Fails

end Steps
