import DesignTokens.Proofs.Script.NestingLimit
import DesignTokens.Proofs.Script.TreeLiteral

/-! # Literals one inside the other

Objects and arrays that hold nothing but the next one, in any order. A script that is such a literal
is read exactly if the limit on nesting allows all of them. -/
namespace DesignTokens.Script
open Nest
open TokenKind (IsUnterminated)

namespace TokenKind

def opens : TokenKind → Bool
  | opener _ => true
  | _ => false

private theorem turn_le (kind : TokenKind) : kind.turn ≤ if kind.opens then 1 else 0 := by
  cases kind <;> simp [turn, opens]

end TokenKind

private theorem openCount_le_countP (ts : List Token) :
    openCount ts ≤ ts.countP (·.kind.opens) := by
  induction ts with
  | nil => exact Int.le_refl 0
  | cons t ts ih =>
    have := t.kind.turn_le
    rw [openCount_cons, List.countP_cons]
    split at this
    · rename_i hopens
      rw [if_pos hopens]
      omega
    · rename_i hopens
      rw [if_neg hopens]
      omega

/-- No more delimiters are open than there are opening ones. -/
theorem nestsWithin_of_countP {limit : Nat} {ts : List Token}
    (h : ts.countP (·.kind.opens) ≤ limit) : NestsWithin limit ts := by
  intro before hbefore
  have hcount := openCount_le_countP before
  have hle : before.countP (·.kind.opens) ≤ ts.countP (·.kind.opens) :=
    hbefore.sublist.countP_le
  omega

/-- What a value is inside of. -/
inductive Layer
  | object
  | array

namespace Layer

/-- An empty string inside of the layers, the first of them outermost. -/
def text : List Layer → List Char
  | [] => Json.quoted ""
  | object :: layers => '\x7b' :: 'a' :: ':' :: (text layers ++ ['\x7d'])
  | array :: layers => '[' :: (text layers ++ [']'])

/-- The tokens of the text, at no place. -/
def nests : List Layer → List Nest
  | [] => [.token (bare (.string ""))]
  | object :: layers => [.group .brace ⟨0, 0⟩ ⟨0, 0⟩
      (.token (bare (.identifier "a")) :: .token (bare .colon) :: nests layers)]
  | array :: layers => [.group .bracket ⟨0, 0⟩ ⟨0, 0⟩ (nests layers)]

theorem tokensOf_object (layers : List Layer) : tokensOf (nests (object :: layers)) =
    bare (.opener .brace) :: bare (.identifier "a") :: bare .colon ::
      (tokensOf (nests layers) ++ [bare (.closer .brace)]) := by
  simp [nests, bare]

theorem tokensOf_array (layers : List Layer) : tokensOf (nests (array :: layers)) =
    bare (.opener .bracket) :: (tokensOf (nests layers) ++ [bare (.closer .bracket)]) := by
  simp [nests, bare]

theorem spells_text (layers : List Layer) : Spells (text layers) (tokensOf (nests layers)) := by
  induction layers with
  | nil => exact .quoted ""
  | cons layer layers ih =>
    cases layer with
    | object =>
      have hname : Spells ('a' :: ([] ++ ':' :: (text layers ++ ['\x7d'])))
          (bare (.identifier "a") :: bare .colon ::
            (tokensOf (nests layers) ++ [bare (.closer .brace)])) :=
        .before (fun _ _ => rfl) rfl (.colon (ih.append (.closing .nil)))
      rw [tokensOf_object]
      exact .opening hname
    | array =>
      have hclosing : Spells [']'] [bare (.closer .bracket)] := .single (fun _ _ => rfl) rfl .nil
      rw [tokensOf_array]
      exact .single (fun _ _ => rfl) rfl (ih.append hclosing)

theorem areProper_nests (layers : List Layer) : AreProper (nests layers) := by
  induction layers with
  | nil => simp [nests, bare, TokenKind.isDelimiter]
  | cons layer layers ih => cases layer <;> simp [nests, bare, TokenKind.isDelimiter, ih]

theorem not_unterminated_nests (layers : List Layer) :
    ∀ t ∈ tokensOf (nests layers), ¬IsUnterminated t.kind := by
  induction layers with
  | nil => simp [nests, bare, IsUnterminated]
  | cons layer layers ih =>
    cases layer with
    | object =>
      rw [tokensOf_object]
      simpa [bare, IsUnterminated, or_imp, forall_and] using ih
    | array =>
      rw [tokensOf_array]
      simpa [bare, IsUnterminated, or_imp, forall_and] using ih

private theorem countP_opens (layers : List Layer) :
    (tokensOf (nests layers)).countP (·.kind.opens) = layers.length := by
  induction layers with
  | nil => rfl
  | cons layer layers ih =>
    cases layer with
    | object =>
      rw [tokensOf_object]
      simp only [List.countP_cons, List.countP_append, ih]
      rfl
    | array =>
      rw [tokensOf_array]
      simp only [List.countP_cons, List.countP_append, ih]
      rfl

/-- Behind `k` layers the next one opens. -/
theorem exists_opensBehind {k : Nat} {layers : List Layer} {ts more : List Token}
    (hk : k < layers.length) (hts : ts.map Token.bare = tokensOf (nests layers) ++ more) :
    ∃ t, OpensBehind t k ts := by
  induction layers generalizing k ts more with
  | nil => simp at hk
  | cons layer layers ih =>
    cases layer with
    | object =>
      rw [tokensOf_object, List.cons_append, List.cons_append, List.cons_append,
        List.append_assoc] at hts
      obtain ⟨u, us, rfl, hu, hus⟩ := List.map_eq_cons_iff.1 hts
      obtain ⟨name, us, rfl, hname, hus⟩ := List.map_eq_cons_iff.1 hus
      obtain ⟨colon, us, rfl, hcolon, hus⟩ := List.map_eq_cons_iff.1 hus
      have hu : u.kind = .opener .brace := congrArg Token.kind hu
      have hname : name.kind = .identifier "a" := congrArg Token.kind hname
      have hcolon : colon.kind = .colon := congrArg Token.kind hcolon
      cases k with
      | zero => exact ⟨u, .brace hu⟩
      | succ k =>
        obtain ⟨t, ht⟩ := ih (Nat.lt_of_succ_lt_succ hk) hus
        exact ⟨t, .inObject hu hname hcolon ht⟩
    | array =>
      rw [tokensOf_array, List.cons_append, List.append_assoc] at hts
      obtain ⟨u, us, rfl, hu, hus⟩ := List.map_eq_cons_iff.1 hts
      have hu : u.kind = .opener .bracket := congrArg Token.kind hu
      cases k with
      | zero => exact ⟨u, .bracket hu⟩
      | succ k =>
        obtain ⟨t, ht⟩ := ih (Nat.lt_of_succ_lt_succ hk) hus
        exact ⟨t, .inArray hu ht⟩

/-- The text has the tokens of its layers, each at some place. -/
theorem exists_tokens (layers : List Layer) : ∃ ts,
    tokens (String.ofList (text layers)) = .ok ts ∧
      ts.map Token.bare = tokensOf (nests layers) := by
  have hs : bareFrom none (String.ofList (text layers)).toList = tokensOf (nests layers) := by
    rw [String.toList_ofList]
    exact (spells_text layers).bareFrom_eq none
  obtain ⟨ms, -, hms, htokens⟩ :=
    tokens_of_bareFrom hs (areProper_nests layers) (not_unterminated_nests layers)
  refine ⟨tokensOf ms, htokens, ?_⟩
  rw [← hms, tokensOf_relocate]
  rfl

/-- Nested literals are read exactly if no more than `maxNesting` are inside of the outermost. -/
theorem document_text_iff (layers : List Layer) :
    (∃ roots, document (String.ofList (text (object :: layers))) = .ok roots) ↔
      layers.length ≤ maxNesting := by
  obtain ⟨ts, hs, hbare⟩ := exists_tokens (object :: layers)
  constructor
  · rintro ⟨roots, hroots⟩
    by_contra hlength
    have hall : ts.map Token.bare = tokensOf (nests (object :: layers)) ++ [] := by
      rw [hbare, List.append_nil]
    obtain ⟨t, ht⟩ := exists_opensBehind (k := maxNesting + 1) (by simp; omega) hall
    have hbrace : ∀ u ∈ ts.head?, u.kind = .opener .brace := by
      rw [tokensOf_object] at hbare
      obtain ⟨u, us, rfl, hu, -⟩ := List.map_eq_cons_iff.1 hbare
      intro v hv
      obtain rfl := Option.some.inj hv
      exact congrArg Token.kind hu
    rw [← List.nil_append ts] at hs
    rw [document_of_opensBehind hs ht hbrace (by simp)] at hroots
    cases hroots
  · intro hlength
    apply document_of_nestsWithin hs
    apply nestsWithin_of_countP
    have hcount : ts.countP (·.kind.opens) = (ts.map Token.bare).countP (·.kind.opens) := by
      rw [List.countP_map]
      rfl
    rw [hcount, hbare, countP_opens]
    exact Nat.succ_le_succ hlength

end Layer
end DesignTokens.Script
