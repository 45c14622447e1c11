import Microboard.Proofs.Json.Building

/-!
# Nesting along the text

Counting the arrays and objects that are open while one goes through the tokens of a value gives the
depth of the value as their greatest number: `nesting_eq_depth`.
-/

namespace Microboard.Json

namespace Token

/-- The greatest number of arrays and objects that are open at once, if `level` are open in front of
    the tokens. -/
def nesting (level : Nat) : List Token → Nat
  | [] => level
  | .openArray :: ts | .openObject :: ts => nesting (level + 1) ts
  | .closeArray :: ts | .closeObject :: ts => max level (nesting (level - 1) ts)
  | _ :: ts => nesting level ts

theorem nesting_comma (level : Nat) (ts : List Token) :
    nesting level (.comma :: ts) = nesting level ts := rfl

theorem le_nesting (level : Nat) (ts : List Token) : level ≤ nesting level ts := by
  induction ts generalizing level with
  | nil => exact Nat.le_refl level
  | cons t ts ih =>
    cases t with
    | openArray => exact Nat.le_of_succ_le (ih (level + 1))
    | openObject => exact Nat.le_of_succ_le (ih (level + 1))
    | closeArray => exact Nat.le_max_left _ _
    | closeObject => exact Nat.le_max_left _ _
    | _ => exact ih level

end Token

open Token (nesting nesting_comma le_nesting)

/-- The tokens of the value reach its depth, and leave what comes behind them as it is. -/
def Nests (v : Json) : Prop :=
  ∀ level ts, nesting level (v.tokens ++ ts) = max (level + v.depth) (nesting level ts)

theorem nesting_itemTokens {items : List Json} (h : ∀ item ∈ items, Nests item) (level : Nat)
    (ts : List Token) :
    nesting level (itemTokens items ++ ts) =
      max (level + depthOfItems items) (nesting level ts) := by
  have hle := le_nesting level ts
  induction items with
  | nil =>
    rw [itemTokens, depthOfItems, List.nil_append]
    omega
  | cons item items ih =>
    obtain ⟨hitem, hrest⟩ := List.forall_mem_cons.mp h
    rw [depthOfItems]
    rcases items with _ | ⟨next, items⟩
    · rw [itemTokens, hitem, depthOfItems]
      omega
    · rw [itemTokens_cons_cons, List.append_assoc, hitem, List.cons_append, nesting_comma,
        ih hrest]
      omega

theorem nesting_fieldTokens {fields : List (Literal × Json)} (h : ∀ field ∈ fields, Nests field.2)
    (level : Nat) (ts : List Token) :
    nesting level (fieldTokens fields ++ ts) =
      max (level + depthOfFields fields) (nesting level ts) := by
  have hle := le_nesting level ts
  induction fields with
  | nil =>
    rw [fieldTokens, depthOfFields, List.nil_append]
    omega
  | cons field fields ih =>
    obtain ⟨name, value⟩ := field
    obtain ⟨hvalue, hrest⟩ := List.forall_mem_cons.mp h
    -- A name and its colon change no level.
    have hfirst : ∀ us, nesting level (.string name :: .colon :: value.tokens ++ us) =
        max (level + value.depth) (nesting level us) := hvalue level
    rw [depthOfFields]
    rcases fields with _ | ⟨next, fields⟩
    · rw [fieldTokens, hfirst, depthOfFields]
      omega
    · rw [fieldTokens_cons_cons, List.append_assoc, hfirst, List.cons_append, nesting_comma,
        ih hrest]
      omega

theorem nesting_tokens (v : Json) : Nests v := by
  induction v using Json.induct with
  | array items ih =>
    intro level ts
    have hitems := nesting_itemTokens ih (level + 1) (.closeArray :: ts)
    rw [tokens, List.append_assoc, List.cons_append, nesting, List.singleton_append, hitems, depth,
      nesting, Nat.add_sub_cancel]
    omega
  | object fields ih =>
    intro level ts
    have hfields := nesting_fieldTokens ih (level + 1) (.closeObject :: ts)
    rw [tokens, List.append_assoc, List.cons_append, nesting, List.singleton_append, hfields, depth,
      nesting, Nat.add_sub_cancel]
    omega
  | _ =>
    intro level ts
    exact (Nat.max_eq_right (le_nesting level ts)).symm

theorem nesting_eq_depth (v : Json) : nesting 0 v.tokens = v.depth := by
  have hnests := nesting_tokens v 0 []
  have hnil : nesting 0 [] = 0 := rfl
  rw [List.append_nil, hnil] at hnests
  omega

end Microboard.Json
