/-!
# Cutting text

A text before and behind the first place where a character stands, and the pieces between all of them.
-/

namespace Dynarec.Text

def cut? (sep : Char) : List Char → Option (List Char × List Char)
  | [] => none
  | c :: cs =>
      if c == sep then some ([], cs)
      else (cut? sep cs).map fun (before, behind) => (c :: before, behind)

theorem cut?_eq_some {sep : Char} {cs before behind : List Char}
    (h : cut? sep cs = some (before, behind)) : cs = before ++ sep :: behind := by
  induction cs generalizing before with
  | nil => simp [cut?] at h
  | cons c cs ih =>
      by_cases hc : c = sep
      · simp only [cut?, hc, BEq.rfl, if_true, Option.some.injEq, Prod.mk.injEq] at h
        simp [← h.1, ← h.2, hc]
      · simp only [cut?, beq_iff_eq, hc, if_false, Option.map_eq_some_iff, Prod.mk.injEq] at h
        obtain ⟨⟨b, r⟩, hb, h1, h2⟩ := h
        subst h2
        simp [ih hb, ← h1]

/-- The pieces between all `sep`; there is always at least one. -/
def pieces (sep : Char) : List Char → List (List Char)
  | [] => [[]]
  | c :: cs =>
      if c == sep then [] :: pieces sep cs
      else
        match pieces sep cs with
        | [] => [[c]]
        | p :: ps => (c :: p) :: ps

def split (sep : Char) (s : String) : List String :=
  (pieces sep s.toList).map String.ofList

end Dynarec.Text
