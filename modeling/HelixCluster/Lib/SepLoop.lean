import Mathlib

/-!
# Loops over separated items

`sepFold` is the loop of a parser: while it finds a separator, it reads the next item and adds it to
what it has.
-/

namespace HelixCluster

variable {β ε α σ γ : Type}

/-- A parser returns a value and the text that is left. -/
abbrev TextParser (β ε α : Type) := List β → Except ε (α × List β)

theorem bind_eq_ok_iff {x : Except ε α} {f : α → Except ε γ} {c : γ} :
    (x >>= f) = .ok c ↔ ∃ a, x = .ok a ∧ f a = .ok c := by
  cases x with
  | error e => exact iff_of_false nofun nofun
  | ok a => exact ⟨fun h => ⟨a, rfl, h⟩, fun ⟨_, ha, h⟩ => Except.ok.inj ha ▸ h⟩

section

variable (separator : List β → Option σ × List β) (item : TextParser β ε α)
  (combine : γ → σ → α → γ)

/-- At most `fuel` rounds of the loop. -/
def sepLoop : ℕ → γ → TextParser β ε γ
  | 0, acc, text => .ok (acc, (separator text).2)
  | fuel + 1, acc, text =>
    match separator text with
    | (none, rest) => .ok (acc, rest)
    | (some s, rest) => do
      let (a, rest) ← item rest
      sepLoop fuel (combine acc s a) rest

/-- The loop, from what has been read before it. -/
def sepFold (acc : γ) : TextParser β ε γ := fun text =>
  sepLoop separator item combine text.length acc text

end

/-- A separator takes at least one character, and an item gives none back. -/
structure Progress (separator : List β → Option σ × List β) (item : TextParser β ε α) : Prop where
  separator_lt : ∀ text s rest, separator text = (some s, rest) → rest.length < text.length
  item_le : ∀ text a rest, item text = .ok (a, rest) → rest.length ≤ text.length

variable {separator : List β → Option σ × List β} {item : TextParser β ε α}
  {combine : γ → σ → α → γ}

variable {text : List β} {fuel : ℕ}

theorem sepLoop_succ (h : Progress separator item) (hfuel : text.length ≤ fuel) (acc : γ) :
    sepLoop separator item combine (fuel + 1) acc text =
      sepLoop separator item combine fuel acc text := by
  induction fuel generalizing acc text with
  | zero =>
    unfold sepLoop
    generalize hsep : separator text = found
    obtain ⟨_ | s, rest⟩ := found
    · rfl
    · have := h.separator_lt _ _ _ hsep
      omega
  | succ fuel ih =>
    rw [sepLoop, sepLoop]
    generalize hsep : separator text = found
    obtain ⟨_ | s, rest⟩ := found
    · rfl
    have hlt := h.separator_lt _ _ _ hsep
    show (item rest >>= _) = (item rest >>= _)
    cases hitem : item rest with
    | error e => rfl
    | ok read =>
      have hle := h.item_le _ _ _ hitem
      exact ih (by omega) _

theorem sepLoop_eq_sepFold (h : Progress separator item) (hfuel : text.length ≤ fuel)
    (acc : γ) :
    sepLoop separator item combine fuel acc text = sepFold separator item combine acc text := by
  induction fuel, hfuel using Nat.le_induction with
  | base => rfl
  | succ fuel hfuel ih => rw [sepLoop_succ h hfuel, ih]

theorem sepFold_of_none {rest : List β} (hsep : separator text = (none, rest)) (acc : γ) :
    sepFold separator item combine acc text = .ok (acc, rest) := by
  unfold sepFold
  cases text.length with
  | zero => rw [sepLoop, hsep]
  | succ fuel => rw [sepLoop, hsep]

theorem sepFold_of_some (h : Progress separator item) {rest : List β} {s : σ}
    (hsep : separator text = (some s, rest)) (acc : γ) : sepFold separator item combine acc text =
      item rest >>= fun read => sepFold separator item combine (combine acc s read.1) read.2 := by
  have hlt := h.separator_lt _ _ _ hsep
  rw [← sepLoop_eq_sepFold h (Nat.le_succ text.length), sepLoop, hsep]
  show (item rest >>= _) = (item rest >>= _)
  cases hitem : item rest with
  | error e => rfl
  | ok read =>
    have hle := h.item_le _ _ _ hitem
    exact sepLoop_eq_sepFold h (by omega) _

theorem sepFold_congr (h : Progress separator item) {other : List β}
    (hsep : separator text = separator other) (acc : γ) :
    sepFold separator item combine acc text = sepFold separator item combine acc other := by
  generalize hfound : separator other = found at hsep
  obtain ⟨_ | s, rest⟩ := found
  · rw [sepFold_of_none hsep, sepFold_of_none hfound]
  · rw [sepFold_of_some h hsep, sepFold_of_some h hfound]

theorem sepLoop_invariant {I : γ → List β → Prop}
    (hround : ∀ acc text s rest a left, I acc text → separator text = (some s, rest) → item rest = .ok (a, left) → I (combine acc s a) left) {acc result : γ} {left : List β} (h : I acc text)
    (hok : sepLoop separator item combine fuel acc text = .ok (result, left)) :
    ∃ text, I result text ∧ left = (separator text).2 := by
  induction fuel generalizing acc text with
  | zero =>
    cases hok
    exact ⟨text, h, rfl⟩
  | succ fuel ih =>
    unfold sepLoop at hok
    generalize hsep : separator text = found at hok
    obtain ⟨_ | s, rest⟩ := found
    · cases hok
      exact ⟨text, h, by rw [hsep]⟩
    · obtain ⟨⟨a, left'⟩, hitem, hok⟩ := bind_eq_ok_iff.mp hok
      exact ih (hround acc text s rest a left' h hsep hitem) hok

end HelixCluster
