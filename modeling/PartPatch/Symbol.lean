/-!
# Symbols

The names by which registries and patches refer to registry entries. A *registry key* is a
non-empty run of symbol characters that starts with a letter or an underscore.
-/

namespace PartPatch.Symbol

set_option autoImplicit false

/-- ASCII letters and digits, underscore, hyphen and full stop. -/
def isChar (c : Char) : Bool :=
  c.isAlphanum || c == '_' || c == '-' || c == '.'

/-- The characters that may start a registry key. -/
def isStart (c : Char) : Bool :=
  c.isAlpha || c == '_'

def isKey (s : String) : Bool :=
  match s.toList with
  | [] => false
  | c :: rest => isStart c && (c :: rest).all isChar

theorem isChar_of_isStart {c : Char} (h : isStart c = true) : isChar c = true := by
  simp only [isStart, isChar, Char.isAlphanum, Bool.or_eq_true] at h ⊢
  rcases h with h | h
  · exact Or.inl (Or.inl (Or.inl (Or.inl h)))
  · exact Or.inl (Or.inl (Or.inr h))

theorem isKey_iff {s : String} :
    isKey s = true ↔ ∃ c rest, s.toList = c :: rest ∧ isStart c = true ∧ ∀ x ∈ rest, isChar x = true := by
  unfold isKey
  split
  · next h => simp [h]
  · next c rest h =>
    simp only [h, Bool.and_eq_true, List.all_eq_true, List.mem_cons, List.cons.injEq]
    constructor
    · rintro ⟨hc, hall⟩
      exact ⟨c, rest, ⟨rfl, rfl⟩, hc, fun x hx => hall x (Or.inr hx)⟩
    · rintro ⟨_, _, ⟨rfl, rfl⟩, hc, hall⟩
      exact ⟨hc, fun x hx => hx.elim (fun e => e ▸ isChar_of_isStart hc) (hall x)⟩

/-- The symbol characters in the order of their codes. -/
def alphabet : String :=
  String.ofList (((List.range 128).map Char.ofNat).filter isChar)

end PartPatch.Symbol
