/-! # What a reader leaves unread -/
namespace DesignTokens

/-- What is left of a list once at least one of its members was read. -/
abbrev Rest {α : Type} (xs : List α) := { rest : List α // rest.length < xs.length }

namespace Rest
variable {α : Type} {xs ys : List α}

def tail (x : α) (xs : List α) : Rest (x :: xs) := ⟨xs, by simp⟩

/-- A rest of a shorter list is a rest of the longer one. -/
def widen (rest : Rest ys) (h : ys.length ≤ xs.length) : Rest xs :=
  ⟨rest.1, Nat.lt_of_lt_of_le rest.2 h⟩

@[simp] theorem tail_val (x : α) (xs : List α) : (tail x xs).1 = xs := rfl

@[simp] theorem widen_val (rest : Rest ys) (h : ys.length ≤ xs.length) :
    (rest.widen h).1 = rest.1 := rfl

end Rest
end DesignTokens
