import Mathlib.Data.List.Forall2
import Mathlib.Data.Option.Basic

/-!
# Two runs side by side

`Both r` holds of two computations in `Except` that fail alike or return values that `r`
relates. Two folds whose turns keep a relation between their states keep it to the end.
-/

namespace Pairs

variable {ε α β γ δ ι κ : Type*}

inductive Both (r : α → β → Prop) : Except ε α → Except ε β → Prop
  | ok {a b} : r a b → Both r (.ok a) (.ok b)
  | error (e : ε) : Both r (.error e) (.error e)

namespace Both

variable {r : α → β → Prop} {s : γ → δ → Prop}

theorem imp {s : α → β → Prop} {x : Except ε α} {y : Except ε β} (both : Both r x y)
    (more : ∀ a b, r a b → s a b) :
    Both s x y := by
  cases both with
  | ok related => exact .ok (more _ _ related)
  | error e => exact .error e

theorem bind {x : Except ε α} {y : Except ε β} {f : α → Except ε γ} {g : β → Except ε δ} (first : Both r x y)
    (rest : ∀ a b, r a b → Both s (f a) (g b)) : Both s (x.bind f) (y.bind g) := by
  cases first with
  | ok related => exact rest _ _ related
  | error e => exact .error e

theorem map {x : Except ε α} {y : Except ε β} {f : α → γ} {g : β → δ} (first : Both r x y)
    (rest : ∀ a b, r a b → s (f a) (g b)) : Both s (x.map f) (y.map g) := by
  cases first with
  | ok related => exact .ok (rest _ _ related)
  | error e => exact .error e

/-- Folds over two lists whose items are related. -/
theorem foldlM {item : ι → κ → Prop} {f : α → ι → Except ε α} {g : β → κ → Except ε β}
    (turn : ∀ a b i k, item i k → r a b → Both r (f a i) (g b k)) {l : List ι} {l' : List κ}
    (items : List.Forall₂ item l l') {a : α} {b : β} (start : r a b) :
    Both r (l.foldlM f a) (l'.foldlM g b) := by
  induction items generalizing a b with
  | nil => exact .ok start
  | cons first _ ih =>
    rw [List.foldlM_cons, List.foldlM_cons]
    exact bind (turn _ _ _ _ first start) fun a b related => ih related

end Both

/-- Folds over the same list. -/
theorem foldl {r : α → β → Prop} {f : α → ι → α} {g : β → ι → β} (turn : ∀ a b i, r a b → r (f a i) (g b i))
    (l : List ι) {a : α} {b : β} (start : r a b) : r (l.foldl f a) (l.foldl g b) := by
  induction l generalizing a b with
  | nil => exact start
  | cons i l ih => exact ih (turn a b i start)

end Pairs
